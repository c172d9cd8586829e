import RadioControl.Byte

/-!
# The control byte

The first byte of a request says what the rest is for.

| bits | meaning |
|---|---|
| 7 | read |
| 6 | write, unless bit 7 is set |
| 5, 4 | the device |
| 3 | nothing |
| 2 to 0 | how many tuples count |

`direction?_pack`, `device_pack` and `count_pack`: a packed control byte reads back what was packed,
its count modulo 8.
-/

namespace RadioControl

/-- What a request is for. -/
inductive Device where
  /-- The board's settings. -/
  | config
  /-- The RF transceiver. -/
  | transceiver
  /-- No device. -/
  | reserved
  /-- The clock generator. -/
  | clockSynth
  deriving DecidableEq, Repr

/-- The two bits that select a device. -/
def Device.code : Device → UInt8
  | .config => 0
  | .transceiver => 1
  | .reserved => 2
  | .clockSynth => 3

/-- The device that the low two bits select. -/
def Device.ofCode (bits : UInt8) : Device :=
  match bits.toNat % 4 with
  | 0 => .config
  | 1 => .transceiver
  | 2 => .reserved
  | _ => .clockSynth

/-- Which way a request moves data. -/
inductive Direction where
  | read
  | write
  deriving DecidableEq, Repr

/-- The bit that asks for a direction. -/
def Direction.flag : Direction → UInt8
  | .read => 0x80
  | .write => 0x40

/-- The first byte of a request. -/
structure ControlByte where
  byte : UInt8
  deriving DecidableEq, Repr

namespace ControlByte

/-- How many tuples count: at most seven. -/
def count (c : ControlByte) : Nat := c.byte.toNat % 8

def device (c : ControlByte) : Device := Device.ofCode (c.byte >>> 4)

def readBit (c : ControlByte) : Bool := c.byte &&& Direction.read.flag != 0

def writeBit (c : ControlByte) : Bool := c.byte &&& Direction.write.flag != 0

/-- Which way the request goes: a read wins over a write, and neither bit means no direction. -/
def direction? (c : ControlByte) : Option Direction :=
  if c.readBit then some .read else if c.writeBit then some .write else none

/-- The control byte with one direction, a device, and the low three bits of `count`. -/
def pack (direction : Direction) (device : Device) (count : UInt8) : ControlByte :=
  ⟨direction.flag ||| device.code <<< 4 ||| count % 8⟩

theorem count_lt (c : ControlByte) : c.count < 8 := Nat.mod_lt _ (by decide)

theorem count_pack (direction : Direction) (device : Device) (count : UInt8) :
    (pack direction device count).count = count.toNat % 8 := by
  revert count
  cases direction <;> cases device <;> exact forall_byte (by decide +kernel)

theorem device_pack (direction : Direction) (device : Device) (count : UInt8) :
    (pack direction device count).device = device := by
  revert count
  cases direction <;> cases device <;> exact forall_byte (by decide +kernel)

theorem direction?_pack (direction : Direction) (device : Device) (count : UInt8) :
    (pack direction device count).direction? = some direction := by
  revert count
  cases direction <;> cases device <;> exact forall_byte (by decide +kernel)

end ControlByte

end RadioControl
