import RadioControl.Frame.Framer
import RadioControl.I2c.ClockSynth
import RadioControl.Radio
import RadioControl.Spi.Transceiver

/-!
# The station

The station puts the bytes of the serial line together to requests and sends a response for each
request, on a blank frame, as soon as its last byte is in. When the line fails, the bytes of the
unfinished frame and the transfer under way are dropped, so that the next byte begins a frame.

`receiveAll_append`: how the line cuts the bytes into chunks does not matter.
-/

namespace RadioControl

/-- A radio on a serial line. -/
structure Station (τ κ β : Type) where
  framer : Framer := .empty
  radio : Radio τ κ β

namespace Station

variable {τ κ β α : Type}

/-- An action of the radio. -/
def onRadio : StateM (Radio τ κ β) α → StateM (Station τ κ β) α :=
  onPart Station.radio fun radio s => { s with radio }

/-- The number of bytes of the unfinished frame. -/
def pending (s : Station τ κ β) : Nat := s.framer.pending.length

/-- After an error on the line. -/
def resync (s : Station τ κ β) : Station τ κ β := { framer := .empty, radio := s.radio.reset }

variable [RegisterBank τ] [RegisterBank κ] [Board β]

/-- The response that a byte brings about, if it completes a request. -/
def receive (b : UInt8) : StateM (Station τ κ β) (Option Response) := fun s =>
  match s.framer.push b with
  | (none, framer) => (none, { s with framer })
  | (some f, framer) =>
    match Radio.answer (Request.ofFrame f) .zero s.radio with
    | (response, radio) => (some response, { framer, radio })

/-- The responses that a chunk brings about. -/
def receiveAll : List UInt8 → StateM (Station τ κ β) (List Response)
  | [] => pure []
  | b :: bs => do
    let response ← receive b
    let responses ← receiveAll bs
    return response.toList ++ responses

theorem receiveAll_append (as bs : List UInt8) :
    (receiveAll (as ++ bs) : StateM (Station τ κ β) (List Response)) = (do
      let first ← receiveAll as
      let second ← receiveAll bs
      return first ++ second) := by
  induction as with
  | nil => simp [receiveAll]
  | cons a as ih =>
    simp only [List.cons_append, receiveAll, ih, bind_assoc, pure_bind, List.append_assoc]

end Station

namespace Station

variable {σ ι β : Type} [Spi.Bus σ] [I2c.Bus ι]

/-- What the two chips say they are, the clock generator first. -/
def identify : StateM (Station (Transceiver σ) (ClockSynth ι) β)
    (Except I2c.Fault UInt8 × Except TransceiverError UInt8) := do
  let revision ← onRadio (Radio.onClock ClockSynth.revision)
  let chipId ← onRadio (Radio.onTransceiver Transceiver.chipId)
  return (revision, chipId)

end Station

end RadioControl
