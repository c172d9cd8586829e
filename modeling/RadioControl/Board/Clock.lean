/-!
# Tick sources

A free-running 64-bit counter that wraps around. `Ticker` is the one that moves by a fixed step each
time it is looked at.
-/

namespace RadioControl

/-- A counter with the state `τ`. -/
class TickSource (τ : Type) where
  poll : StateM τ UInt64

/-- A counter that moves by `step` after each poll. -/
structure Ticker where
  now : UInt64
  step : UInt64
  deriving DecidableEq, Repr

instance instTickSourceTicker : TickSource Ticker where
  poll t := (t.now, { t with now := t.now + t.step })

end RadioControl
