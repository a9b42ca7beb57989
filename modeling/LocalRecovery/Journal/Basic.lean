import LocalRecovery.Journal.Event

set_option autoImplicit false

/-! # Journals

What a computation leaves behind for its readers: the events it recorded and the messages it
logged. Both are kept in order, each for itself. A computation made of parts has the journals of
the parts, one appended to the other.
-/

namespace LocalRecovery

/-- The importance of a message. -/
inductive Level where
  | error
  | warn
  | info
  | debug
  deriving DecidableEq

/-- A logged line. -/
structure Message where
  level : Level
  text : String
  deriving DecidableEq

/-- Recorded events and logged messages. -/
structure Journal where
  events : List Event := []
  messages : List Message := []
  deriving DecidableEq

namespace Journal

/-- The entries of both journals, those of the first one first. -/
instance : Append Journal where
  append first second := ⟨first.events ++ second.events, first.messages ++ second.messages⟩

@[simp] theorem events_append (first second : Journal) :
    (first ++ second).events = first.events ++ second.events := rfl

@[simp] theorem messages_append (first second : Journal) :
    (first ++ second).messages = first.messages ++ second.messages := rfl

theorem append_assoc (first second third : Journal) :
    first ++ second ++ third = first ++ (second ++ third) := by
  show Journal.mk _ _ = Journal.mk _ _
  simp only [events_append, messages_append, List.append_assoc]

theorem nil_append (j : Journal) : {} ++ j = j := rfl

end Journal

end LocalRecovery
