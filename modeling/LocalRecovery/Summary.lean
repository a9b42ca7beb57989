set_option autoImplicit false

/-! # Summaries

A line about the outcome of a pass, with a weight.
-/

namespace LocalRecovery

/-- The weight of a summary, the lightest first. -/
inductive Severity where
  | info
  | success
  | warning
  | error
  deriving DecidableEq

namespace Severity

/-- The name of a severity. -/
def text : Severity → String
  | .info => "info"
  | .success => "success"
  | .warning => "warning"
  | .error => "error"

/-- The position of a severity among all of them. -/
def rank : Severity → Nat
  | .info => 0
  | .success => 1
  | .warning => 2
  | .error => 3

end Severity

/-- A line about the outcome of a pass. -/
structure Summary where
  message : String
  severity : Severity := .success
  deriving DecidableEq

namespace Summary

/-- The line with its severity. -/
def text (s : Summary) : String :=
  "[" ++ s.severity.text ++ "] " ++ s.message

/-- The summaries by ascending severity; equal severities keep their order. -/
def sortBySeverity (summaries : List Summary) : List Summary :=
  summaries.mergeSort fun s t => decide (s.severity.rank ≤ t.severity.rank)

end Summary

end LocalRecovery
