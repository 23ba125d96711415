import FlowAnalysis.Constants.Reporting
import FlowAnalysis.Proofs.Solver.Logs

/-!
# Requests for messages

Requests for messages add up: the first one switches messages on, and the topics that are named are
gathered, until there are any of which all topics count.  The requests decide which messages an
analysis leaves in its log, and nothing else.

## Main definitions

- `Argument.requests`, `Argument.others` — the requests among arguments, and the other arguments
- `Argument.named`, `Argument.Selected` — the topics that requests name, and those they select
- `Problem.under` — a problem under the settings that arguments lead to

## Main statements

- `Options.shows_ofArguments` — the messages that are kept
- `Constants.Reporting.boundary_eq`, `Constants.Reporting.transfer_eq` — reports that are written as
  they come up leave the facts and the log that reports written at the end leave
- `requests_filter_log` — what requests do to a solve
-/

namespace FlowAnalysis

open Diagnostics (topicsOf untilNul)

/-! ## What is asked for -/

namespace Argument

/-- The text of a request for messages. -/
def request? : Argument → Option String
  | diagnostics text => some text
  | decideEdgesOnce => none

/-- The requests for messages. -/
def requests (args : List Argument) : List String := args.filterMap request?

/-- The arguments that do not ask for messages. -/
def others (args : List Argument) : List Argument := args.filter (·.request? = none)

/-- The topics that the requests name. -/
def named (args : List Argument) : List String := (requests args).flatMap topicsOf

/-- No request names a topic, or one of them names this one. -/
def Selected (args : List Argument) (t : Topic) : Prop := named args = [] ∨ t.name ∈ named args

instance (args : List Argument) (t : Topic) : Decidable (Selected args t) :=
  inferInstanceAs (Decidable (_ ∨ _))

variable {args args' left right : List Argument} {text : String}

theorem mem_requests : text ∈ requests args ↔ .diagnostics text ∈ args := by
  constructor
  · intro h
    obtain ⟨a, ha, hr⟩ := List.mem_filterMap.mp h
    cases a with
    | diagnostics text' => exact Option.some.inj hr ▸ ha
    | decideEdgesOnce => cases hr
  · exact fun h => List.mem_filterMap.mpr ⟨_, h, rfl⟩

theorem requests_eq_nil_congr (h : ∀ a, a ∈ args' ↔ a ∈ args) :
    requests args' = [] ↔ requests args = [] := by
  simp only [List.eq_nil_iff_forall_not_mem, mem_requests, h]

theorem mem_named_congr (h : ∀ a, a ∈ args' ↔ a ∈ args) (topic : String) :
    topic ∈ named args' ↔ topic ∈ named args := by
  simp only [named, List.mem_flatMap, mem_requests, h]

theorem selected_congr (h : ∀ a, a ∈ args' ↔ a ∈ args) (t : Topic) :
    Selected args' t ↔ Selected args t := by
  simp only [Selected, List.eq_nil_iff_forall_not_mem, mem_named_congr h]

theorem topicsOf_eq_nil (h : ∀ c ∈ text.toList, c = ',') : topicsOf text = [] := by
  refine pieces_eq_nil_iff.mpr fun c hc => h c ?_
  rw [untilNul, String.toList_ofList] at hc
  exact List.takeWhile_subset _ hc

/-- A request that names no topic adds none. -/
theorem named_insert (h : topicsOf text = []) :
    named (left ++ .diagnostics text :: right) = named (left ++ right) := by
  simp [named, requests, request?, h]

theorem requests_others (args : List Argument) : requests (others args) = [] := by
  refine List.eq_nil_iff_forall_not_mem.mpr fun text h => ?_
  have hmem := List.mem_filter.mp (mem_requests.mp h)
  simp [request?] at hmem

theorem decideEdgesOnce_mem_others : decideEdgesOnce ∈ others args ↔ decideEdgesOnce ∈ args := by
  simp [others, request?]

end Argument

/-! ## What is kept -/

namespace Options

open Argument

theorem diagnostics_grantAll (o : Options) (args : List Argument) :
    (o.grantAll args).diagnostics = ⟨o.diagnostics.enabled || requests args ≠ [],
      o.diagnostics.topics ++ named args⟩ := by
  induction args generalizing o with
  | nil => simp [grantAll, requests, named]
  | cons a args ih =>
    rw [grantAll, List.foldl_cons, ← grantAll, ih]
    cases a with
    | diagnostics text =>
      simp [grant, Diagnostics.request, requests, request?, named, List.append_assoc]
    | decideEdgesOnce => rfl

theorem decideEdgesOnce_grantAll (o : Options) (args : List Argument) :
    (o.grantAll args).decideEdgesOnce = true ↔
      o.decideEdgesOnce = true ∨ .decideEdgesOnce ∈ args := by
  induction args generalizing o with
  | nil => simp [grantAll]
  | cons a args ih =>
    rw [grantAll, List.foldl_cons, ← grantAll, ih]
    cases a <;> simp [grant]

theorem decideEdgesOnce_ofArguments (args : List Argument) :
    (ofArguments args).decideEdgesOnce = true ↔ .decideEdgesOnce ∈ args :=
  (decideEdgesOnce_grantAll {} args).trans (by simp)

theorem selects_ofArguments (args : List Argument) (t : Topic) :
    (ofArguments args).diagnostics.selects t.name = true ↔ Selected args t := by
  simp [ofArguments, diagnostics_grantAll, Diagnostics.selects, Selected]

/-- A message is kept if there is a request at all and its topic is selected. -/
theorem shows_ofArguments (args : List Argument) (msg : Message) :
    (ofArguments args).diagnostics.shows msg = true ↔
      requests args ≠ [] ∧ Selected args msg.topic := by
  rw [Diagnostics.shows, Bool.and_eq_true, selects_ofArguments]
  simp [ofArguments, diagnostics_grantAll]

end Options

/-! ## Reports written as they come up -/

namespace Constants.Reporting

variable {d : Diagnostics} {log : Trail Message}

theorem run_tell (msg : Message) : (tell msg).run d log = ((), log.append (d.shown [msg])) := by
  have hrun : (tell msg).run d log = ((), if d.shows msg then log.push msg else log) := by
    change (if d.shows msg then modify (·.push msg) else pure () : Reporting Unit).run d log = _
    split <;> rfl
  rw [hrun, Diagnostics.shown, List.filter_singleton]
  cases d.shows msg <;> rfl

theorem boundary_eq (m : Method) :
    (boundary m).run d log = (Constants.boundary m, log.append (d.shown (boundaryMessages m))) :=
  congrArg (Prod.mk (Constants.boundary m) ∘ Prod.snd) (run_tell _)

theorem evaluateBinary_eq (m : Method) (op : BinaryOp) (a b : VarId) (f : Fact) :
    (evaluateBinary m op a b f).run d log = (Constants.evaluateBinary op (f.get a) (f.get b),
      log.append (d.shown (divisionMessages m (.binary op a b) f))) := by
  simp only [evaluateBinary, Constants.evaluateBinary, divisionMessages]
  by_cases h : dividesByZero op (f.get b) = true
  · rw [if_pos h, if_pos h, if_pos h]
    exact congrArg (Prod.mk Value.undef ∘ Prod.snd) (run_tell _)
  · rw [if_neg h, if_neg h, if_neg h]
    cases f.get a <;> cases f.get b <;> rfl

theorem evaluate_eq (m : Method) (e : Expr VarId) (f : Fact) :
    (evaluate m e f).run d log =
      (Constants.evaluate e f, log.append (d.shown (divisionMessages m e f))) := by
  cases e with
  | binary op a b => exact evaluateBinary_eq m op a b f
  | _ => rfl

theorem transfer_eq (m : Method) (s : Stmt VarId) (f recorded : Fact) :
    (transfer m s f recorded).run d log =
      (((Constants.transfer m s f recorded).fact, (Constants.transfer m s f recorded).changed),
        log.append (d.shown (Constants.transfer m s f recorded).messages)) := by
  cases h : followed? m s with
  | none =>
    simp only [transfer, Constants.transfer, Transfer.ofFact, effect, effectMessages, h]
    rfl
  | some r =>
    simp only [transfer, Constants.transfer, Transfer.ofFact, effect, effectMessages, h]
    exact congrArg (fun o : Value × Trail Message =>
      ((f.set r.1 o.1, decide (f.set r.1 o.1 ≠ recorded)), o.2)) (evaluate_eq m r.2 f)

end Constants.Reporting

/-! ## What requests do to a solve -/

/-- An outcome without its log. -/
def Outcome.muted {N φ : Type} (o : Outcome N φ) : Outcome N φ := o.keeping fun _ => false

theorem Outcome.muted_keeping {N φ : Type} (keep : Message → Bool) (o : Outcome N φ) :
    (o.keeping keep).muted = o.muted := by
  cases o <;> simp [muted, keeping, State.keeping, Trail.filter]

namespace Problem

open Argument

variable {N φ : Type} [DecidableEq N] {g : Graph N} {a : Analysis N φ} {args args' : List Argument}

/-- A graph and an analysis under the settings that arguments lead to. -/
def under (g : Graph N) (a : Analysis N φ) (args : List Argument) : Problem N φ :=
  ⟨g, a, .ofArguments args⟩

/-- A graph and an analysis under settings that keep every message. -/
def loud (g : Graph N) (a : Analysis N φ) (once : Bool) : Problem N φ :=
  ⟨g, a, ⟨once, { enabled := true }⟩⟩

/-- Whether arguments have a message kept. -/
def keeps (args : List Argument) (msg : Message) : Bool :=
  requests args ≠ [] ∧ Selected args msg.topic

theorem keeps_congr (h : ∀ x, x ∈ args' ↔ x ∈ args) : keeps args' = keeps args := by
  funext msg
  simp only [keeps, Ne, requests_eq_nil_congr h, selected_congr h]

theorem keeps_others (args : List Argument) : keeps (others args) = fun _ => false := by
  funext msg
  simp [keeps, requests_others]

/-- A request for all topics has every message kept. -/
theorem keeps_plain (args : List Argument) :
    keeps (.diagnostics "" :: others args) = fun _ => true := by
  have hnamed : named (.diagnostics "" :: others args) = [] := by
    rw [← List.nil_append (_ :: _), named_insert (topicsOf_eq_nil (by simp)), List.nil_append,
      named, requests_others, List.flatMap_nil]
  funext msg
  simp [keeps, Selected, hnamed, requests, request?]

/-- Where there are requests already, one that names no topic has the same messages kept. -/
theorem keeps_insert {left right : List Argument} {text : String} (h : topicsOf text = [])
    (hne : requests (left ++ right) ≠ []) :
    keeps (left ++ .diagnostics text :: right) = keeps (left ++ right) := by
  have hmem : text ∈ requests (left ++ .diagnostics text :: right) := mem_requests.mpr (by simp)
  funext msg
  simp [keeps, Selected, named_insert h, hne, List.ne_nil_of_mem hmem]

theorem under_eq_withDiagnostics (args : List Argument) :
    under g a args = (loud g a (.decideEdgesOnce ∈ args)).withDiagnostics
      (Options.ofArguments args).diagnostics := by
  have honce : (Options.ofArguments args).decideEdgesOnce =
      decide (Argument.decideEdgesOnce ∈ args) := by
    rw [Bool.eq_iff_iff, Options.decideEdgesOnce_ofArguments, decide_eq_true_iff]
  exact congrArg (fun once => Problem.mk g a ⟨once, (Options.ofArguments args).diagnostics⟩) honce

/-- Of what a run could report, its log has what the arguments have kept. -/
theorem solve_under (args : List Argument) (limit : Nat) : (under g a args).solve limit =
    ((loud g a (.decideEdgesOnce ∈ args)).solve limit).keeping (keeps args) := by
  have hshows : (Options.ofArguments args).diagnostics.shows = keeps args := by
    funext msg
    rw [Bool.eq_iff_iff, Options.shows_ofArguments, keeps, decide_eq_true_iff]
  rw [under_eq_withDiagnostics, solve_withDiagnostics (fun _ _ => rfl), hshows]

theorem accounts_under (args : List Argument) (limit : Nat) : (under g a args).accounts limit =
    (loud g a (.decideEdgesOnce ∈ args)).accounts limit := by
  rw [under_eq_withDiagnostics, accounts_withDiagnostics]

/-- Arguments that have the same messages kept, and otherwise ask for the same, lead to the same
outcome. -/
theorem solve_under_congr (honce : .decideEdgesOnce ∈ args' ↔ .decideEdgesOnce ∈ args)
    (hkeeps : keeps args' = keeps args) (limit : Nat) :
    (under g a args').solve limit = (under g a args).solve limit := by
  simp only [solve_under, honce, hkeeps]

end Problem

open Argument Constants in
/-- Requests for messages decide what is left in the log, and nothing else.  Without them the
outcome is the same but for the log, which is empty, and so is what can be seen of each visit.  With
them the log has, of the messages that a single request for all topics keeps, those whose topic is
selected, in the same order.  In what order the arguments come and how often does not matter; a
request of commas only, or of nothing, restricts nothing and lifts no restriction.

This holds as well of messages that constant propagation writes while it is at work: what it comes
to does not depend on the settings, and the messages it writes are those that the settings leave of
what there is to report. -/
theorem requests_filter_log {N φ : Type} [DecidableEq N] (g : Graph N) (a : Analysis N φ)
    (args : List Argument) (limit : Nat) :
    let outcome (args : List Argument) := (Problem.under g a args).solve limit
    (outcome (others args) = (outcome args).muted ∧
      (Problem.under g a args).accounts limit = (Problem.under g a (others args)).accounts limit) ∧
    (requests args = [] → (outcome args).log.toList = []) ∧
    (requests args ≠ [] → (outcome args).log.toList =
      (outcome (.diagnostics "" :: others args)).log.toList.filter (Selected args ·.topic)) ∧
    (∀ t : Topic, (Options.ofArguments args).diagnostics.selects t.name = true ↔
      Selected args t) ∧
    (∀ args', (∀ x, x ∈ args' ↔ x ∈ args) →
      outcome args' = outcome args ∧ ∀ t, Selected args' t ↔ Selected args t) ∧
    (∀ left right text, left ++ right = args → (∀ c ∈ text.toList, c = ',') →
      (∀ t, Selected (left ++ .diagnostics text :: right) t ↔ Selected args t) ∧
      (requests args ≠ [] →
        outcome (left ++ .diagnostics text :: right) = outcome args)) ∧
    (∀ (m : Method) (d : Diagnostics) (log : Trail Message), (Reporting.boundary m).run d log =
      (boundary m, log.append (d.shown (boundaryMessages m)))) ∧
    ∀ (m : Method) (d : Diagnostics) (log : Trail Message) (s : Stmt VarId) (f recorded : Fact),
      (Reporting.transfer m s f recorded).run d log =
        (((transfer m s f recorded).fact, (transfer m s f recorded).changed),
          log.append (d.shown (transfer m s f recorded).messages)) := by
  intro outcome
  refine ⟨⟨?_, ?_⟩, ?_, ?_, Options.selects_ofArguments args, ?_, ?_,
    fun m d log => Reporting.boundary_eq m,
    fun m d log s f recorded => Reporting.transfer_eq m s f recorded⟩
  · simp only [outcome, Problem.solve_under, decideEdgesOnce_mem_others, Outcome.muted_keeping,
      Problem.keeps_others]
    rfl
  · simp only [Problem.accounts_under, decideEdgesOnce_mem_others]
  · intro h
    simp [outcome, Problem.solve_under, Problem.keeps, h]
  · intro h
    have honce : Argument.decideEdgesOnce ∈ .diagnostics "" :: others args ↔
        Argument.decideEdgesOnce ∈ args := by
      simp [decideEdgesOnce_mem_others]
    simp only [outcome, Problem.solve_under, honce, Problem.keeps_plain, Outcome.log_keeping,
      Trail.toList_filter, List.filter_true]
    refine congrArg (List.filter · _) (funext fun msg => ?_)
    simp [Problem.keeps, h]
  · intro args' hmem
    exact ⟨Problem.solve_under_congr (hmem _) (Problem.keeps_congr hmem) limit,
      selected_congr hmem⟩
  · rintro left right text rfl hcommas
    have htopics := topicsOf_eq_nil hcommas
    have hselected : ∀ t, Selected (left ++ .diagnostics text :: right) t ↔
        Selected (left ++ right) t := by
      simp [Selected, named_insert htopics]
    refine ⟨hselected, fun h => Problem.solve_under_congr ?_ ?_ limit⟩
    · simp
    · exact Problem.keeps_insert htopics h

/-- An analysis that has something to report at the start and on each visit. -/
def chatty : Analysis Nat Bool :=
  { (Problem.relay .forward).analysis with
    boundaryMessages := [.boundary "test" "true"]
    transfer := fun _ x recorded => .ofFact x recorded [.divisionByZero "a / b"] }

theorem requests_filter_log_chatty :
    let g := (Problem.relay .forward).graph
    let args := [.diagnostics ",constprop,", .decideEdgesOnce, .diagnostics ",,"]
    let outcome := fun args => (Problem.under g chatty args).solve 6
    (outcome args).log.toList =
        .boundary "test" "true" :: List.replicate 6 (.divisionByZero "a / b") ∧
      (outcome [.decideEdgesOnce]).log.toList = [] ∧
      outcome (args.reverse ++ args) = outcome args ∧
      outcome (.diagnostics "," :: args) = outcome args := by
  intro g args outcome
  have hne : Argument.requests args ≠ [] := by decide
  obtain ⟨-, -, hlog, -, horder, hcommas, -⟩ := requests_filter_log g chatty args 6
  obtain ⟨-, hnone, -⟩ := requests_filter_log g chatty [.decideEdgesOnce] 6
  refine ⟨(hlog hne).trans (by decide), hnone rfl, ?_, ?_⟩
  · exact (horder (args.reverse ++ args) (by simp)).1
  · exact (hcommas [] args "," rfl (by simp)).2 hne

end FlowAnalysis
