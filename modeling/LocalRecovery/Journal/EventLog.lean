import LocalRecovery.Journal.Event

set_option autoImplicit false

/-! # Event logs

A log keeps events in the order in which they were recorded. Its views count them, select them and
sum them up in one line (`EventLog.summary`).
-/

namespace LocalRecovery

/-- Events in the order in which they were recorded. -/
structure EventLog where
  events : List Event := []
  deriving DecidableEq

namespace EventLog

/-- The log with further events. -/
def extend (log : EventLog) (events : List Event) : EventLog :=
  ⟨log.events ++ events⟩

/-- The number of events. -/
def size (log : EventLog) : Nat :=
  log.events.length

/-! ## Selections and counts -/

/-- The events of a kind. -/
def ofKind (log : EventLog) (kind : EventKind) : List Event :=
  log.events.filter fun e => e.kind == kind

/-- The events in a method. -/
def inMethod (log : EventLog) (method : Token) : List Event :=
  log.events.filter fun e => e.method == some method

/-- The warnings. -/
def warnings (log : EventLog) : List Event :=
  log.ofKind .warning

/-- Is there an event of the kind? -/
def has (log : EventLog) (kind : EventKind) : Bool :=
  log.events.any fun e => e.kind == kind

/-- The number of events of a kind. -/
def countKind (log : EventLog) (kind : EventKind) : Nat :=
  log.events.countP fun e => e.kind == kind

/-- The counts after one more event of a kind. A kind that was not counted yet is put last. -/
def tally (kind : EventKind) : List (EventKind × Nat) → List (EventKind × Nat)
  | [] => [(kind, 1)]
  | (other, count) :: rest =>
      if other = kind then (other, count + 1) :: rest else (other, count) :: tally kind rest

/-- The kinds that occur, each with the number of its events, counted in one pass over the log. -/
def countByKind (log : EventLog) : List (EventKind × Nat) :=
  log.events.foldl (fun counts e => tally e.kind counts) []

/-- The number of events that report a change to the module. -/
def transformationCount (log : EventLog) : Nat :=
  log.events.countP fun e => e.kind.isTransformation

/-- The number of different methods in which something happened. -/
def methodsAffected (log : EventLog) : Nat :=
  (log.events.filterMap Event.method).eraseDups.length

/-! ## The summary -/

/-- The changes among counted kinds, as a list in words that is sorted as text. -/
def summaryOf (total : Nat) (counts : List (EventKind × Nat)) : String :=
  let changes := (counts.filter fun entry => entry.1.isTransformation).map fun entry =>
    toString entry.2 ++ " " ++ entry.1.description
  if total = 0 then "no events"
  else if changes.isEmpty then toString total ++ " events"
  else String.intercalate ", " (changes.mergeSort fun a b => decide (a ≤ b))

/-- The log in one line. -/
def summary (log : EventLog) : String :=
  summaryOf log.size log.countByKind

end EventLog

end LocalRecovery
