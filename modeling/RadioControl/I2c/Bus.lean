import RadioControl.Trace

/-!
# I2C buses

A transaction goes to a bus address, writes some bytes, and then reads some. A transaction that
fails is still an event.
-/

namespace RadioControl.I2c

/-- What was not acknowledged. -/
inductive Unacknowledged where
  | address
  | data
  | unknown
  deriving DecidableEq, Repr

/-- How an I2C transaction fails. -/
inductive Fault where
  | bus
  | arbitrationLoss
  | noAcknowledge (what : Unacknowledged)
  | overrun
  | other
  deriving DecidableEq, Repr

/-- One transaction: the bytes written, and how many are read after them. -/
structure Transaction where
  address : UInt8
  written : List UInt8
  reads : Nat
  deriving DecidableEq, Repr

/-- A bus with the state `ι`. -/
class Bus (ι : Type) where
  perform : (t : Transaction) → StateM ι (Except Fault (Vector UInt8 t.reads))

instance instBusTraced {ι : Type} [Bus ι] : Bus (Traced ι Transaction) where
  perform t := Traced.recording (fun _ => t) (Bus.perform t)

end RadioControl.I2c
