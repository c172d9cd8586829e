import RadioControl.Trace

/-!
# SPI buses

A two-word full-duplex exchange on a serial bus with a chip-select line. Each of its four steps can
fail, and a step that fails is still an event.
-/

namespace RadioControl.Spi

/-- How an SPI step fails. -/
inductive Fault where
  | overrun
  | modeFault
  | frameFormat
  | chipSelectFault
  | other
  deriving DecidableEq, Repr

/-- A bus with the state `σ`. -/
class Bus (σ : Type) where
  /-- Drive the chip-select line low. -/
  select : StateM σ (Except Fault Unit)
  /-- Send two words and return the two that come back. -/
  exchange : UInt8 → UInt8 → StateM σ (Except Fault (UInt8 × UInt8))
  /-- Wait for the last word to leave. -/
  flush : StateM σ (Except Fault Unit)
  /-- Drive the chip-select line high. -/
  deselect : StateM σ (Except Fault Unit)

/-- A step on a bus. -/
inductive Event where
  | select
  | exchange (first second : UInt8)
  | flush
  | deselect
  deriving DecidableEq, Repr

instance instBusTraced {σ : Type} [Bus σ] : Bus (Traced σ Event) where
  select := Traced.recording (fun _ => .select) Bus.select
  exchange first second :=
    Traced.recording (fun _ => .exchange first second) (Bus.exchange first second)
  flush := Traced.recording (fun _ => .flush) Bus.flush
  deselect := Traced.recording (fun _ => .deselect) Bus.deselect

end RadioControl.Spi
