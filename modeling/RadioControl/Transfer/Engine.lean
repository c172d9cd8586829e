import RadioControl.Frame.Control
import RadioControl.Transfer.Step

/-!
# The transfer engine

Between frames the engine is idle, or in the middle of a read or of a write. A frame in the other
direction abandons what was under way, even a frame with no tuple; an abandoned write is never
applied.
-/

namespace RadioControl

/-- What the engine is in the middle of. -/
inductive Activity where
  | idle
  | reading (progress : Progress)
  | writing (progress : Progress)
  deriving DecidableEq, Repr

namespace Activity

/-- The progress that a read goes on with. -/
def reading? : Activity → Option Progress
  | .reading p => some p
  | _ => none

/-- The progress that a write goes on with. -/
def writing? : Activity → Option Progress
  | .writing p => some p
  | _ => none

def isIdle : Activity → Bool
  | .idle => true
  | _ => false

/-- What a read leaves behind. -/
def ofRead : Option Progress → Activity
  | some p => .reading p
  | none => .idle

end Activity

/-- The engine that moves settings. -/
structure Transfer where
  policy : Policy := .usual
  activity : Activity := .idle
  deriving DecidableEq, Repr

namespace Transfer

/-- The engine with nothing under way. -/
def reset (t : Transfer) : Transfer := { t with activity := .idle }

def isIdle (t : Transfer) : Bool := t.activity.isIdle

variable {β : Type} [Board β]

/-- The replies to the tuples of a read frame, and the engine after it. -/
def read (t : Transfer) (ts : List Tuple) : StateM β (List Tuple × Transfer) := do
  let (replies, left) ← serve t.policy t.activity.reading? ts
  return (replies, { t with activity := .ofRead left })

/-- A write that is whole is applied, and any other waits for its next byte. -/
def settle : Option Progress → StateM β Activity
  | none => pure .idle
  | some p =>
    if p.Finished then do
      p.setting.store p.value
      return .idle
    else return .writing p

/-- The replies to the tuples of a write frame, and the engine after it. -/
def write (t : Transfer) (ts : List Tuple) : StateM β (List Tuple × Transfer) := do
  let (replies, left) := collect t.policy t.activity.writing? ts
  let activity ← settle left
  return (replies, { t with activity })

/-- The replies to the tuples of a frame, and the engine after it. -/
def run (t : Transfer) : Direction → List Tuple → StateM β (List Tuple × Transfer)
  | .read => t.read
  | .write => t.write

end Transfer

end RadioControl
