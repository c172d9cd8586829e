import RadioControl.I2c.Bus
import RadioControl.Part
import RadioControl.Register.Bank

/-!
# The clock generator

The Si5338 has 256 registers behind an I2C bus. Each access is one transaction: the register's
number, and then a byte written or a byte read.

As a register bank the clock generator answers zero where an access fails.
-/

namespace RadioControl

/-- The clock generator at a seven-bit address of the bus `ι`. -/
structure ClockSynth (ι : Type) where
  bus : ι
  address : UInt8

namespace ClockSynth

/-- The bus address of the part as it leaves the factory. -/
def factoryAddress : UInt8 := 0x70

def revisionRegister : UInt8 := 0

def outputEnableRegister : UInt8 := 230

def softResetRegister : UInt8 := 246

def pageRegister : UInt8 := 255

variable {ι : Type}

/-- The clock generator at the low seven bits of an address. -/
def atAddress (bus : ι) (address : UInt8) : ClockSynth ι := ⟨bus, address &&& 0x7F⟩

/-- The clock generator at the address that it has from the factory. -/
def factory (bus : ι) : ClockSynth ι := atAddress bus factoryAddress

/-- An action of the bus. -/
def onBus {α : Type} : StateM ι α → StateM (ClockSynth ι) α :=
  onPart ClockSynth.bus fun bus s => { s with bus }

variable [I2c.Bus ι]

def readRegister (register : UInt8) : StateM (ClockSynth ι) (Except I2c.Fault UInt8) := do
  let address := (← get).address
  return (← onBus (I2c.Bus.perform ⟨address, [register], 1⟩)).map fun bytes => bytes[0]

def writeRegister (register value : UInt8) : StateM (ClockSynth ι) (Except I2c.Fault Unit) := do
  let address := (← get).address
  return (← onBus (I2c.Bus.perform ⟨address, [register, value], 0⟩)).map fun _ => ()

def revision : StateM (ClockSynth ι) (Except I2c.Fault UInt8) := readRegister revisionRegister

instance instRegisterBank : RegisterBank (ClockSynth ι) where
  read register := do
    match ← readRegister register with
    | .ok value => return value
    | .error _ => return 0
  write register value := do
    let _ ← writeRegister register value

end ClockSynth

end RadioControl
