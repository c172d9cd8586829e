import RadioControl.Frame.Payload

/-!
# Responses

A response is two head bytes, which nothing here changes, and seven tuples. Replies fill the slots
from the first one on (`Response.fill`); the other slots keep what they held.
-/

namespace RadioControl

/-- A frame to the host. -/
structure Response where
  head : UInt8 × UInt8
  payload : Payload
  deriving DecidableEq

namespace Response

def ofFrame (f : Frame) : Response := ⟨(f.first, f.second), Payload.ofFrame f⟩

def toFrame (r : Response) : Frame := r.payload.toFrame r.head

def zero : Response := ⟨(0, 0), Payload.zero⟩

/-- The tuple in slot `i`, if there is such a slot. -/
def tuple? (r : Response) (i : Nat) : Option Tuple := r.payload[i]?

/-- The response with `t` in slot `i`; the same response if there is no such slot. -/
def setTuple (r : Response) (i : Nat) (t : Tuple) : Response :=
  { r with payload := r.payload.setIfInBounds i t }

/-- The response with the replies `ts` in its first slots. -/
def fill (r : Response) (ts : List Tuple) : Response := { r with payload := r.payload.overlay ts }

@[simp] theorem ofFrame_toFrame (r : Response) : ofFrame r.toFrame = r := by
  simp [ofFrame, toFrame, Payload.ofFrame_toFrame]

@[simp] theorem toFrame_ofFrame (f : Frame) : (ofFrame f).toFrame = f := Payload.toFrame_ofFrame f

@[simp] theorem head_setTuple (r : Response) (i : Nat) (t : Tuple) :
    (r.setTuple i t).head = r.head := rfl

@[simp] theorem head_fill (r : Response) (ts : List Tuple) : (r.fill ts).head = r.head := rfl

theorem tuple?_setTuple (r : Response) (i j : Nat) (t : Tuple) :
    (r.setTuple i t).tuple? j = if i = j ∧ j < 7 then some t else r.tuple? j := by
  simp only [tuple?, setTuple, Vector.getElem?_setIfInBounds]
  by_cases h : i = j
  · subst h
    by_cases hi : i < 7 <;> simp [hi]
  · simp [h]

theorem tuple?_fill (r : Response) (ts : List Tuple) (i : Nat) (h : i < 7) :
    (r.fill ts).tuple? i = some ((ts[i]?).getD r.payload[i]) := by
  simp [tuple?, fill, h, Payload.getElem_overlay]

end Response

end RadioControl
