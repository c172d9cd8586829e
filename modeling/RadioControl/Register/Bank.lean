import RadioControl.Trace

/-!
# Register banks

A chip as the host sees it: 256 addresses with a byte behind each. A read always answers and a write
always returns, whatever happens on the way to the chip.
-/

namespace RadioControl

/-- A chip with the state `ρ`. -/
class RegisterBank (ρ : Type) where
  read : UInt8 → StateM ρ UInt8
  write : UInt8 → UInt8 → StateM ρ Unit

/-- An access to a register bank. -/
inductive RegisterAccess where
  | read (address answer : UInt8)
  | write (address value : UInt8)
  deriving DecidableEq, Repr

instance instRegisterBankTraced {ρ : Type} [RegisterBank ρ] :
    RegisterBank (Traced ρ RegisterAccess) where
  read a := Traced.recording (RegisterAccess.read a) (RegisterBank.read a)
  write a v := Traced.recording (fun _ => RegisterAccess.write a v) (RegisterBank.write a v)

end RadioControl
