import RadioControl.Register.File
import RadioControl.Spi.Bus

/-!
# An SPI chip in memory

128 registers that take the second word of an exchange whose first word has bit 7 set, and that
answer with what they held before. Switches make each step of an access fail: a failing exchange
changes nothing, and a failing flush comes too late to undo a write.
-/

namespace RadioControl.Spi

/-- Which steps fail, and how. A chip-select line that fails has no cause of its own. -/
structure Switches where
  select : Bool := false
  exchange : Option Fault := none
  flush : Option Fault := none
  deselect : Bool := false
  deriving DecidableEq, Repr

/-- A chip with its failure switches. -/
structure Chip where
  registers : RegisterFile 128 := .zero
  failing : Switches := {}
  deriving DecidableEq

namespace Chip

/-- The register that the first word of an exchange selects. -/
def register (first : UInt8) : Fin 128 := Fin.ofNat 128 first.toNat

/-- The registers after an exchange. -/
def stored (m : RegisterFile 128) (first second : UInt8) : RegisterFile 128 :=
  if first &&& 0x80 = 0 then m else m.set (register first) second

/-- The outcome of a step that fails with `fault`, if there is one. -/
def outcome (fault : Option Fault) : Except Fault Unit :=
  match fault with
  | some f => .error f
  | none => .ok ()

instance instBus : Bus Chip where
  select c := (outcome (if c.failing.select then some .other else none), c)
  exchange first second c :=
    match c.failing.exchange with
    | some fault => (.error fault, c)
    | none => (.ok (0, c.registers.get (register first)),
        { c with registers := stored c.registers first second })
  flush c := (outcome c.failing.flush, c)
  deselect c := (outcome (if c.failing.deselect then some .other else none), c)

end Chip

end RadioControl.Spi
