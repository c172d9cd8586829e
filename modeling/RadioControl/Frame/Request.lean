import RadioControl.Frame.Control
import RadioControl.Frame.Payload

/-!
# Requests

A request is a control byte, a spare byte that means nothing, and seven tuples. Every frame is a
request (`Request.ofFrame`) and back (`toFrame_ofFrame`).
-/

namespace RadioControl

/-- A frame from the host. -/
structure Request where
  control : ControlByte
  spare : UInt8
  payload : Payload
  deriving DecidableEq

namespace Request

def ofFrame (f : Frame) : Request := ⟨⟨f.first⟩, f.second, Payload.ofFrame f⟩

def toFrame (r : Request) : Frame := r.payload.toFrame (r.control.byte, r.spare)

/-- The request with the first seven of `ts`; free slots and the spare byte are zero. -/
def pack (control : ControlByte) (ts : List Tuple) : Request :=
  ⟨control, 0, Payload.zero.overlay ts⟩

/-- The tuple in slot `i`, if there is such a slot. -/
def tuple? (r : Request) (i : Nat) : Option Tuple := r.payload[i]?

/-- The first `n` tuples, or all seven. -/
def tuples (r : Request) (n : Nat) : List Tuple := r.payload.toList.take n

@[simp] theorem ofFrame_toFrame (r : Request) : ofFrame r.toFrame = r := by
  simp [ofFrame, toFrame, Payload.ofFrame_toFrame]

@[simp] theorem toFrame_ofFrame (f : Frame) : (ofFrame f).toFrame = f := Payload.toFrame_ofFrame f

end Request

end RadioControl
