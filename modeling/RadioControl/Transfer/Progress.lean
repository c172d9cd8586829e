import RadioControl.Byte
import RadioControl.Frame.Payload
import RadioControl.LittleEndian
import RadioControl.Setting.Basic

/-!
# A setting on its way

A setting is moved one byte for each tuple, so a transfer can stop between any two bytes and go on
in a later frame. `Progress` is what has to be remembered in between.
-/

namespace RadioControl

/-- A transfer of one setting: the bytes moved so far, and the word that they come from or make. -/
structure Progress where
  setting : Setting
  moved : UInt8
  value : UInt64
  deriving DecidableEq, Repr

namespace Progress

/-- Before the first byte. -/
def start (s : Setting) (value : UInt64) : Progress := ⟨s, 0, value⟩

/-- The address of the next byte, modulo 256. -/
def next (p : Progress) : UInt8 := p.setting.start + p.moved

/-- All bytes have moved. Of a setting without addresses there is none to move. -/
def Finished (p : Progress) : Prop := p.setting.width ≤ p.moved

instance (p : Progress) : Decidable p.Finished := inferInstanceAs (Decidable (_ ≤ _))

/-- The next byte to send. -/
def head (p : Progress) : UInt8 := LittleEndian.byteAt p.value p.moved.toNat

/-- After the next byte is sent. -/
def advance (p : Progress) : Progress := { p with moved := satSucc p.moved }

/-- After the byte `b` is received. -/
def put (p : Progress) (b : UInt8) : Progress :=
  { p with moved := satSucc p.moved, value := LittleEndian.orByte p.value p.moved.toNat b }

/-- A tuple that answers one at `address` with a byte: the address is counted from the start of the
setting, modulo 256. -/
def reply (p : Progress) (address data : UInt8) : Tuple := ⟨address - p.setting.start, data⟩

end Progress

end RadioControl
