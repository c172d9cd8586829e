import RadioControl.I2c.Bus
import RadioControl.Register.File

/-!
# An I2C chip in memory

256 registers behind a pointer. The first byte of a write sets the pointer; every further byte is
stored, and every byte read is fetched, at the pointer, which then moves to the next register and
from the last to the first. The chip answers at one address only, and a switch makes every
transaction fail. A transaction that fails changes nothing.
-/

namespace RadioControl.I2c

/-- A chip with its failure switch. -/
structure Chip where
  address : UInt8
  pointer : UInt8 := 0
  registers : RegisterFile 256 := .zero
  failing : Option Fault := none
  deriving DecidableEq

namespace Chip

/-- After a byte at the pointer. -/
def advance (c : Chip) : Chip := { c with pointer := c.pointer + 1 }

/-- After the bytes `bs` are stored at the pointer. -/
def storeAll (c : Chip) : List UInt8 → Chip
  | [] => c
  | b :: bs => ({ c with registers := c.registers.set c.pointer.toFin b }.advance).storeAll bs

/-- After a write: a pointer and then the bytes to store; no byte changes nothing. -/
def written (c : Chip) : List UInt8 → Chip
  | [] => c
  | p :: bs => { c with pointer := p }.storeAll bs

/-- The next `n` bytes at the pointer. -/
def fetchAll (c : Chip) : (n : Nat) → Vector UInt8 n × Chip
  | 0 => (#v[], c)
  | n + 1 => match c.advance.fetchAll n with
    | (bytes, c') => ((#v[c.registers.get c.pointer.toFin] ++ bytes).cast (Nat.add_comm 1 n), c')

instance instBus : Bus Chip where
  perform t c :=
    match c.failing with
    | some fault => (.error fault, c)
    | none =>
      if c.address = t.address then
        match (c.written t.written).fetchAll t.reads with
        | (bytes, c') => (.ok bytes, c')
      else (.error (.noAcknowledge .address), c)

end Chip

end RadioControl.I2c
