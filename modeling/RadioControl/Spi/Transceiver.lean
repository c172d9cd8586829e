import RadioControl.Part
import RadioControl.Register.Bank
import RadioControl.Spi.Bus

/-!
# The RF transceiver

The LMS6002D has 128 registers behind an SPI bus. An access is one exchange of two words: the
address, with bit 7 set for a write, and the data. The chip is deselected after every exchange, also
after one that fails, and the earliest failure is the one reported.

As a register bank the transceiver answers zero where an access fails.
-/

namespace RadioControl

/-- How an access to the transceiver fails. -/
inductive TransceiverError where
  | bus (fault : Spi.Fault)
  | chipSelect (fault : Spi.Fault)
  deriving DecidableEq, Repr

/-- The transceiver on the bus `σ`. -/
structure Transceiver (σ : Type) where
  bus : σ

namespace Transceiver

/-- The register that identifies the chip. -/
def chipIdRegister : UInt8 := 0x04

/-- The register that switches the parts of the chip on. -/
def topControlRegister : UInt8 := 0x05

/-- The address word of a read. -/
def readWord (address : UInt8) : UInt8 := address &&& 0x7F

/-- The address word of a write. -/
def writeWord (address : UInt8) : UInt8 := 0x80 ||| (address &&& 0x7F)

section Exchange

variable {σ : Type} [Spi.Bus σ]

/-- An exchange with a selected chip, up to the end of the last word. -/
def exchangeSelected (first second : UInt8) : StateM σ (Except Spi.Fault UInt8) := do
  match ← Spi.Bus.exchange first second with
  | .error fault => return .error fault
  | .ok (_, answer) =>
    match ← Spi.Bus.flush with
    | .error fault => return .error fault
    | .ok () => return .ok answer

/-- The whole exchange; its answer is the second word that comes back. -/
def exchange (first second : UInt8) : StateM σ (Except TransceiverError UInt8) := do
  match ← Spi.Bus.select with
  | .error fault => return .error (.chipSelect fault)
  | .ok () =>
    let outcome ← exchangeSelected first second
    let released ← Spi.Bus.deselect
    match outcome, released with
    | .error fault, _ => return .error (.bus fault)
    | .ok _, .error fault => return .error (.chipSelect fault)
    | .ok answer, .ok () => return .ok answer

end Exchange

variable {σ : Type} [Spi.Bus σ]

/-- An action of the bus. -/
def onBus {α : Type} : StateM σ α → StateM (Transceiver σ) α :=
  onPart Transceiver.bus fun bus _ => ⟨bus⟩

def readRegister (address : UInt8) : StateM (Transceiver σ) (Except TransceiverError UInt8) :=
  onBus (exchange (readWord address) 0)

def writeRegister (address value : UInt8) :
    StateM (Transceiver σ) (Except TransceiverError Unit) := do
  return (← onBus (exchange (writeWord address) value)).map fun _ => ()

def chipId : StateM (Transceiver σ) (Except TransceiverError UInt8) := readRegister chipIdRegister

instance instRegisterBank : RegisterBank (Transceiver σ) where
  read address := do
    match ← readRegister address with
    | .ok value => return value
    | .error _ => return 0
  write address value := do
    let _ ← writeRegister address value

end Transceiver

end RadioControl
