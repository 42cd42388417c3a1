/-
`sleep(ms)`: a step that is over after some time.

The deadline is fixed when the step starts and saved with it, so a reload does
not make a sleep longer. A duration is truncated to whole milliseconds, and one
below zero is zero. One that leads past the last representable day is refused.
-/
import DurableFlow.Step.Arguments
import DurableFlow.Number.Shortest

set_option autoImplicit false

namespace DurableFlow.Step

open Script Text

/-- The last millisecond that a timestamp can name: the end of the year 262142. -/
def lastMillis : Int := Timestamp.daysOfDate 262143 1 1 * 86400000 - 1

/-- The failure of a duration that no deadline can be found for. -/
def outOfRange (duration : String) : Failure :=
  { code := Failure.Code.wrongArgumentType
    message := s!"sleep: duration {duration} ms is out of range" }

/-- The duration in whole milliseconds, at most as long as a signed word can say. -/
def wholeMillis? (duration : Float) : Option Int :=
  (Number.truncate? duration).bind fun n => if n < Nat.pow 2 63 then some (max n 0) else none

/-- The time a number of milliseconds from now. -/
def deadlineAfter (clock : Timestamp) (millis : Int) : Except Failure Timestamp :=
  if clock.millis + millis ≤ lastMillis then .ok ⟨clock.millis + millis⟩
  else .error (outOfRange (Number.plainText (Float.ofInt millis)))

/-- The time at which a sleep that starts now is over. -/
def sleepDeadline (clock : Timestamp) (args : List Val) : Except Failure Timestamp := do
  let duration ← numberArg "sleep" args 0
  match wholeMillis? duration with
  | some millis => deadlineAfter clock millis
  | none => .error (outOfRange (Number.plainText duration))

/-- Reads the deadline of a saved sleep. -/
def deadlineOfState? (state : Json) : Option Timestamp := do
  let fields ← (Document.ofJson state).record? ["deadline"] 1
  fields.field? "deadline" History.timestampOfDocument?

/-- `sleep(ms)` ends with null after so many milliseconds. -/
def sleep : StepDef where
  function := "sleep"
  displayName := fun args =>
    match args.head? with
    | some duration => "Sleep " ++ duration.text ++ " ms"
    | none => "Sleep"
  create := fun clock args => do
    checkCount "sleep" args 1 1
    -- only looked at: the deadline is found when the step starts
    let _ ← sleepDeadline clock args
    return .empty
  restore := fun clock args state => do
    -- the arguments are looked at as in a new call; the deadline is the saved one
    let _ ← sleepDeadline clock args
    match state with
    | none => return .empty
    | some state =>
      match deadlineOfState? state with
      | some time => return .deadline time
      | none => .error (.internal "bad sleep state: no deadline")
  start := fun view =>
    match sleepDeadline view.clock view.args with
    | .ok time => { effects := [.wakeAt time], memory := .deadline time, reply := .later }
    | .error failure => { reply := .failed failure }
  stop := fun _ cause => { effects := [.cancelWake, .deliver (.error cause)] }
  onResume := fun view =>
    match view.memory with
    | .deadline time => { effects := [.wakeAt time], memory := view.memory }
    -- without a deadline the sleep is over at once
    | _ => { effects := [.wakeAt view.clock], memory := view.memory }
  saveState := fun memory =>
    match memory with
    | .deadline time => some (.obj [("deadline", .str time.text)])
    | _ => none
  status := fun _ memory =>
    match memory with
    | .deadline time => some ("sleeping until " ++ time.text)
    | _ => none

end DurableFlow.Step
