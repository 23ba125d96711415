import FlowAnalysis.Graph.Direction
import FlowAnalysis.Pieces

/-!
# Diagnostics

While it works, an analysis reports on its progress.  Each message belongs to a topic; which
messages are kept is a matter of the settings, and nothing else depends on them.

## Main definitions

- `Message`, `Message.text` — what can be reported, and its wording
- `Diagnostics` — which messages are kept
- `Diagnostics.request` — a request for some topics, or for all of them
- `Diagnostics.selects` — whether a topic is among those asked for
- `Diagnostics.shown` — the messages that are kept
-/

namespace FlowAnalysis

inductive Topic where
  | solver
  | constants
  deriving DecidableEq

def Topic.name : Topic → String
  | solver => "dataflow-solver"
  | constants => "constprop"

/-- A report on the progress of an analysis. -/
inductive Message where
  /-- The worklist has been filled with that many nodes. -/
  | seeded (direction : Direction) (nodes : Nat)
  /-- A visit has changed a fact and put that many nodes on the worklist again. -/
  | requeued (direction : Direction) (nodes : Nat)
  /-- The worklist is empty after that many visits. -/
  | settled (visits : Nat)
  /-- What is known at the start of a method. -/
  | boundary (method fact : String)
  /-- An expression divides by a constant zero. -/
  | divisionByZero (expression : String)
  deriving DecidableEq

namespace Message

def topic : Message → Topic
  | seeded _ _ | requeued _ _ | settled _ => .solver
  | boundary _ _ | divisionByZero _ => .constants

def text : Message → String
  | seeded d n => "[WorkListSolver] " ++ d.name ++ ", seeded " ++ n.repr ++ " nodes"
  | requeued .forward n => "[WorkListSolver] OUT changed, " ++ n.repr ++ " successors queued"
  | requeued .backward n => "[WorkListSolver] IN changed, " ++ n.repr ++ " predecessors queued"
  | settled n => "[WorkListSolver] fixpoint after " ++ n.repr ++ " iterations"
  | boundary method fact => "[constprop] boundary fact of " ++ method ++ ": " ++ fact
  | divisionByZero e => "[constprop] division by zero in '" ++ e ++ "', result is UNDEF"

end Message

/-- A log as text: every message ends in a newline. -/
def logText (log : List Message) : String := String.join (log.map (·.text ++ "\n"))

/-- Which messages are kept. -/
structure Diagnostics where
  enabled : Bool := false
  /-- The names of the topics asked for; none means all of them. -/
  topics : List String := []
  deriving DecidableEq

namespace Diagnostics

/-- The part of a text before its first NUL character, which is where names and requests end. -/
def untilNul (text : String) : String := String.ofList (text.toList.takeWhile (· ≠ '\x00'))

/-- Whether the topic of a name is among those asked for.  It may be so even while no messages are
kept. -/
def selects (d : Diagnostics) (topic : String) : Bool :=
  d.topics.isEmpty || d.topics.contains (untilNul topic)

def shows (d : Diagnostics) (m : Message) : Bool := d.enabled && d.selects m.topic.name

def shown (d : Diagnostics) (ms : List Message) : List Message := ms.filter d.shows

/-- The topics named in a request: the pieces between commas that are not empty, as they stand. -/
def topicsOf (request : String) : List String := pieces (untilNul request).toList

/-- Switches messages on and adds the topics of a request to those asked for. -/
def request (d : Diagnostics) (text : String) : Diagnostics :=
  { enabled := true, topics := d.topics ++ topicsOf text }

/-- The names of the topics have no NUL character in them. -/
@[simp]
theorem untilNul_name (t : Topic) : untilNul t.name = t.name := by
  cases t <;> decide

theorem shown_append (d : Diagnostics) (ms ns : List Message) :
    d.shown (ms ++ ns) = d.shown ms ++ d.shown ns := List.filter_append ..

end Diagnostics

end FlowAnalysis
