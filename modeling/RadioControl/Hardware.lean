/-!
# Hardware settings

The pins, rates and times of the controller board.
-/

namespace RadioControl

/-- A pin of the controller: the letter of its bank and its number there. -/
structure Pin where
  bank : Char
  number : Nat
  deriving DecidableEq, Repr

/-- The name of a pin, such as PA5. -/
def Pin.name (p : Pin) : String := String.ofList ['P', p.bank] ++ toString p.number

namespace Hardware

def systemClockHz : Nat := 170000000

/-- The speed of the serial line to the host, in baud. -/
def hostBaud : Nat := 4000000

/-- The most bytes that the serial line hands over at once. -/
def hostChunk : Nat := 64

def i2cHz : Nat := 400000

def spiHz : Nat := 10000000

/-- Half the period of the status light, in milliseconds. -/
def heartbeatMs : Nat := 500

/-- How long the status light shows a request, in milliseconds. -/
def flashMs : Nat := 30

def statusLed : Pin := ⟨'A', 5⟩

def hostTx : Pin := ⟨'A', 9⟩

def hostRx : Pin := ⟨'A', 10⟩

def i2cScl : Pin := ⟨'B', 8⟩

def i2cSda : Pin := ⟨'B', 9⟩

def spiSck : Pin := ⟨'B', 3⟩

def spiMiso : Pin := ⟨'B', 4⟩

def spiMosi : Pin := ⟨'B', 5⟩

def spiSelect : Pin := ⟨'A', 4⟩

end Hardware

end RadioControl
