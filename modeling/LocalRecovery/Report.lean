import LocalRecovery.Decimal.Duration
import LocalRecovery.Journal.EventLog
import LocalRecovery.Summary

set_option autoImplicit false

/-! # Reports

The outcome of a run: all events, the summaries of the passes, and a few totals.
-/

namespace LocalRecovery

/-- The outcome of a run. -/
structure Report where
  events : EventLog := {}
  summaries : List Summary := []
  changes : UInt64 := 0
  passes : Nat := 0
  time : Duration := {}
  deriving DecidableEq

namespace Report

/-- The number of accesses that now go elsewhere. Every change is one. -/
def accessesRedirected (r : Report) : UInt64 :=
  r.changes

/-- The number of things that were removed from the module. -/
def artifactsRemoved (r : Report) : Nat :=
  r.events.countKind .artifactRemoved

/-- The report in one line. -/
def summary (r : Report) : String :=
  r.events.summary ++ " (" ++ toString r.passes ++ " passes, " ++ r.time.text ++ ")"

/-- The report in one line, followed by a line for each summary. -/
def detailedSummary (r : Report) : String :=
  r.summaries.foldl (fun text s => text ++ "\n" ++ s.text)
    ("Deobfuscation complete: " ++ r.summary)

end Report

end LocalRecovery
