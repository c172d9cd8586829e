import RadioControl.I2c.ClockSynth
import RadioControl.Proofs.Stateful
import RadioControl.Spi.Transceiver

/-!
# Operations of a driver

A chip is read and written through its driver, which tells how an access fails, or as a register
bank, which does not. `Operation` has both, and what comes of an operation is determined by the
address and the byte that it is about and by the outcome of the access (`Operation.answer`).

An `Attempt` is an operation with the failures that it is made under, and `attemptAll` makes one
attempt after another.
-/

namespace RadioControl

/-- A register bank whose driver tells how an access fails. -/
class Driver (δ : Type) (ε : outParam Type) [RegisterBank δ] where
  readRegister : UInt8 → StateM δ (Except ε UInt8)
  writeRegister : UInt8 → UInt8 → StateM δ (Except ε Unit)
  /-- Read the register that tells which chip it is. -/
  identify : StateM δ (Except ε UInt8)

instance instDriverTransceiver {σ : Type} [Spi.Bus σ] :
    Driver (Transceiver σ) TransceiverError where
  readRegister := Transceiver.readRegister
  writeRegister := Transceiver.writeRegister
  identify := Transceiver.chipId

instance instDriverClockSynth {ι : Type} [I2c.Bus ι] : Driver (ClockSynth ι) I2c.Fault where
  readRegister := ClockSynth.readRegister
  writeRegister := ClockSynth.writeRegister
  identify := ClockSynth.revision

/-- A register bank reads as its driver does, and shows zero where that fails. -/
theorem Transceiver.read_apply {σ : Type} [Spi.Bus σ] (address : UInt8) (t : Transceiver σ) :
    RegisterBank.read address t =
      let out := readRegister address t
      (out.1.toOption.getD 0, out.2) := by
  unfold RegisterBank.read instRegisterBank
  simp only [bind_apply]
  cases (readRegister address t).1 <;> rfl

theorem ClockSynth.read_apply {ι : Type} [I2c.Bus ι] (register : UInt8) (c : ClockSynth ι) :
    RegisterBank.read register c =
      let out := readRegister register c
      (out.1.toOption.getD 0, out.2) := by
  unfold RegisterBank.read instRegisterBank
  simp only [bind_apply]
  cases (readRegister register c).1 <;> rfl

/-- A use of a chip: through its driver, or as a register bank (`read`, `write`). -/
inductive Operation where
  | readRegister (address : UInt8)
  | writeRegister (address value : UInt8)
  | identify
  | read (address : UInt8)
  | write (address value : UInt8)
  deriving DecidableEq, Repr

/-- The outcome of an access that would bring `value`: the error, if there is one. -/
def reported {ε : Type} (error? : Option ε) (value : UInt8) : Except ε UInt8 :=
  match error? with
  | some e => .error e
  | none => .ok value

/-- What comes of an operation, if accesses fail as `ε` says. -/
inductive Answer (ε : Type) where
  | byte (outcome : Except ε UInt8)
  | done (outcome : Except ε Unit)
  /-- A byte without a word on failures. -/
  | shown (value : UInt8)
  | nothing
  deriving DecidableEq

namespace Operation

/-- The address that the operation is about, if the chip identifies itself at `identity`. -/
def address (identity : UInt8) : Operation → UInt8
  | readRegister a | writeRegister a _ | read a | write a _ => a
  | identify => identity

/-- The byte that the operation writes; a read writes none. -/
def value? : Operation → Option UInt8
  | writeRegister _ v | write _ v => some v
  | readRegister _ | identify | read _ => none

/-- The answer to an operation whose access has this outcome. The byte of a write means nothing, and
a register bank shows zero for what could not be read. -/
def answer {ε : Type} (outcome : Except ε UInt8) : Operation → Answer ε
  | readRegister _ | identify => .byte outcome
  | writeRegister _ _ => .done (outcome.map fun _ => ())
  | read _ => .shown (outcome.toOption.getD 0)
  | write _ _ => .nothing

section Answers

variable {ε : Type} {o : Operation} {outcome : Except ε UInt8}

/-- The byte of a write means nothing. -/
theorem answer_ok_of_write {v : UInt8} (h : o.value? = some v) (a b : UInt8) :
    o.answer (.ok a : Except ε UInt8) = o.answer (.ok b) := by
  cases o with
  | writeRegister a v | write a v => rfl
  | readRegister a | identify | read a => cases h

theorem answer_eq_byte {e : Except ε UInt8} (h : o.answer outcome = .byte e) : outcome = e := by
  cases o with
  | readRegister a | identify => exact Answer.byte.inj h
  | writeRegister a v | read a | write a v => cases h

theorem answer_eq_done_ok (h : o.answer outcome = .done (.ok ())) : ∃ v, outcome = .ok v := by
  cases o with
  | writeRegister a v =>
    cases outcome with
    | error e => cases h
    | ok b => exact ⟨b, rfl⟩
  | readRegister a | identify | read a | write a v => cases h

theorem answer_eq_shown {v : UInt8} (h : o.answer outcome = .shown v) :
    v = outcome.toOption.getD 0 := by
  cases o with
  | read a => exact (Answer.shown.inj h).symm
  | readRegister a | writeRegister a v | identify | write a v => cases h

end Answers

section Perform

variable {δ ε : Type} [RegisterBank δ] [Driver δ ε]

/-- Carry out an operation. -/
def perform : Operation → StateM δ (Answer ε)
  | readRegister a => return .byte (← Driver.readRegister a)
  | writeRegister a v => return .done (← Driver.writeRegister a v)
  | identify => return .byte (← Driver.identify)
  | read a => return .shown (← RegisterBank.read a)
  | write a v => do
    RegisterBank.write a v
    return .nothing

end Perform

end Operation

/-- An operation, and how accesses fail when it is carried out. -/
structure Attempt (φ : Type) where
  failing : φ
  operation : Operation
  deriving DecidableEq

section Runs

variable {φ δ ε : Type} [RegisterBank δ] [Driver δ ε]

/-- Carry out an operation after its failures have been arranged. -/
def Attempt.make (arrange : φ → δ → δ) (x : Attempt φ) : StateM δ (Answer ε) := do
  modify (arrange x.failing)
  x.operation.perform

/-- The answers to a run of attempts. -/
def attemptAll (arrange : φ → δ → δ) (xs : List (Attempt φ)) : StateM δ (List (Answer ε)) :=
  xs.mapM (Attempt.make arrange)

theorem Attempt.make_apply (arrange : φ → δ → δ) (x : Attempt φ) (s : δ) :
    x.make arrange s = x.operation.perform (arrange x.failing s) := rfl

theorem attemptAll_concat_apply (arrange : φ → δ → δ) (xs : List (Attempt φ)) (x : Attempt φ)
    (s : δ) : (attemptAll arrange (xs ++ [x]) s).2 =
      (x.make arrange (attemptAll arrange xs s).2).2 := by
  unfold attemptAll
  rw [mapM_append_apply]
  rfl

/-- What comes of an attempt in the middle of a run is what comes of it after the earlier ones. -/
theorem getElem?_attemptAll (arrange : φ → δ → δ) (earlier later : List (Attempt φ))
    (x : Attempt φ) (s : δ) :
    (attemptAll arrange (earlier ++ x :: later) s).1[earlier.length]? =
      some (x.make arrange (attemptAll arrange earlier s).2).1 :=
  getElem?_mapM_apply (Attempt.make arrange) earlier later x s

end Runs

end RadioControl
