import Mathlib
import RadioControl.Byte
import RadioControl.I2c.Chip
import RadioControl.Proofs.Register.Exchange

/-!
# Registers behind a bus

`Spi.Memory` and `I2c.Memory` say what a bus does to the registers of the chip on it: an access that
works stores what the chip has it store, and one that fails, wherever and however it does, may have
got as far as that or not. The chips in memory are such buses with any of their switches on, and a
recorded bus is one if the bus is.

* `Transceiver.registers_read`, `Transceiver.registers_write`: what an access to the transceiver
  does to its registers, and `Transceiver.words_exchange` what it sends.
* `ClockSynth.registers_read`, `ClockSynth.registers_write`: the same of the clock generator.
-/

namespace RadioControl

namespace Spi

/-- A bus with a chip of 128 registers. -/
class Memory (σ : Type) [Bus σ] where
  registers : σ → RegisterFile 128
  select : ∀ s : σ, registers (Bus.select s).2 = registers s
  /-- The second word is stored if bit 7 of the first is set; a failing exchange may come too early
  for it. -/
  exchange : ∀ (first second : UInt8) (s : σ),
    let out := Bus.exchange first second s
    registers out.2 = Chip.stored (registers s) first second ∨
      ∃ fault, out.1 = .error fault ∧ registers out.2 = registers s
  flush : ∀ s : σ, registers (Bus.flush s).2 = registers s
  deselect : ∀ s : σ, registers (Bus.deselect s).2 = registers s

instance instMemoryChip : Memory Chip where
  registers := Chip.registers
  select _ := rfl
  exchange first second c := by
    cases hf : c.failing.exchange with
    | none => exact .inl (by simp [Bus.exchange, hf])
    | some fault => exact .inr ⟨fault, by simp [Bus.exchange, hf]⟩
  flush _ := rfl
  deselect _ := rfl

instance instMemoryTraced {σ : Type} [Bus σ] [Memory σ] : Memory (Traced σ Event) where
  registers t := Memory.registers t.state
  select t := Memory.select t.state
  exchange first second t := Memory.exchange first second t.state
  flush t := Memory.flush t.state
  deselect t := Memory.deselect t.state

end Spi

namespace I2c

/-- The registers after the bytes `bs` are stored from the pointer on. -/
def storedAt (m : RegisterFile 256) (pointer : UInt8) : List UInt8 → RegisterFile 256
  | [] => m
  | b :: bs => storedAt (m.set pointer.toFin b) (pointer + 1) bs

/-- The registers after a write: a pointer and then the bytes to store. -/
def writtenTo (m : RegisterFile 256) : List UInt8 → RegisterFile 256
  | [] => m
  | pointer :: bs => storedAt m pointer bs

/-- A bus with a chip of 256 registers behind a pointer. -/
class Memory (ι : Type) [Bus ι] where
  registers : ι → RegisterFile 256
  /-- The bytes of a transaction are written; a failing one may be cut short. -/
  perform : ∀ (t : Transaction) (s : ι),
    let out := Bus.perform t s
    registers out.2 = writtenTo (registers s) t.written ∨
      ∃ fault n, out.1 = .error fault ∧
        registers out.2 = writtenTo (registers s) (t.written.take n)

namespace Chip

theorem registers_storeAll (c : Chip) (bs : List UInt8) :
    (c.storeAll bs).registers = storedAt c.registers c.pointer bs := by
  induction bs generalizing c with
  | nil => rfl
  | cons b bs ih => exact ih _

theorem registers_written (c : Chip) (bs : List UInt8) :
    (c.written bs).registers = writtenTo c.registers bs := by
  cases bs with
  | nil => rfl
  | cons p bs => exact registers_storeAll _ bs

theorem registers_fetchAll (c : Chip) (n : Nat) : (c.fetchAll n).2.registers = c.registers := by
  induction n generalizing c with
  | zero => rfl
  | succ n ih => exact ih c.advance

end Chip

instance instMemoryChip : Memory Chip where
  registers := Chip.registers
  perform t c := by
    cases hf : c.failing with
    | some fault =>
      refine .inr ⟨fault, 0, ?_⟩
      simp [Bus.perform, hf, writtenTo]
    | none =>
      by_cases ha : c.address = t.address
      · refine .inl ?_
        simp [Bus.perform, hf, ha, Chip.registers_fetchAll, Chip.registers_written]
      · refine .inr ⟨.noAcknowledge .address, 0, ?_⟩
        simp [Bus.perform, hf, ha, writtenTo]

end I2c

/-! ## The transceiver -/

namespace Transceiver

theorem readWord_and (a : UInt8) : readWord a &&& 0x80 = 0 := by
  revert a
  exact forall_byte (by decide +kernel)

/-- An exchange sends no other words than its own. -/
theorem words_exchange {σ : Type} [Spi.Bus σ] (first second : UInt8) (s : Traced σ Spi.Event) :
    ∃ es, (exchange first second s).2.trace = s.trace ++ es ∧
      ∀ a b, .exchange a b ∈ es → a = first ∧ b = second :=
  ⟨_, trace_exchange first second s, fun _ _ => Spi.Course.words_of_mem_events⟩

section Registers

variable {σ : Type} [Spi.Bus σ]

/-- The bus after a read is the bus after its exchange. -/
theorem bus_read (address : UInt8) (t : Transceiver σ) :
    (RegisterBank.read address t).2.bus = (exchange (readWord address) 0 t.bus).2 := by
  rw [read_apply]
  rfl

theorem bus_write (address value : UInt8) (t : Transceiver σ) :
    (RegisterBank.write address value t).2.bus = (exchange (writeWord address) value t.bus).2 :=
  rfl

variable [Spi.Memory σ]

/-- A flush changes nothing, so that it does not matter whether it is come to. -/
theorem registers_atDeselect (first second : UInt8) (s : σ) :
    Spi.Memory.registers (Spi.atDeselect first second s) =
      Spi.Memory.registers (Spi.Bus.exchange first second (Spi.Bus.select s).2).2 := by
  unfold Spi.atDeselect
  simp only [apply_ite Spi.Memory.registers, Spi.Memory.flush, ite_self]

/-- An exchange stores its second word as the chip does, or nothing. -/
theorem registers_exchange (first second : UInt8) (s : σ) :
    Spi.Memory.registers (exchange first second s).2 = Spi.Memory.registers s ∨
      Spi.Memory.registers (exchange first second s).2 =
        Spi.Chip.stored (Spi.Memory.registers s) first second := by
  have hselected := Spi.Memory.select s
  have hsent := Spi.Memory.exchange first second (Spi.Bus.select s).2
  simp only [hselected] at hsent
  rw [exchange_apply]
  simp only [apply_ite Spi.Memory.registers, Spi.Memory.deselect, registers_atDeselect]
  split
  · exact .inl hselected
  · exact hsent.symm.imp_left fun ⟨_, _, h⟩ => h

/-- A read changes no register. -/
theorem registers_read (address : UInt8) (t : Transceiver σ) :
    Spi.Memory.registers (RegisterBank.read address t).2.bus = Spi.Memory.registers t.bus := by
  have hstored : ∀ m, Spi.Chip.stored m (readWord address) 0 = m :=
    fun m => if_pos (readWord_and address)
  have h := registers_exchange (readWord address) 0 t.bus
  rw [hstored, or_self] at h
  rw [bus_read]
  exact h

/-- A write changes no register but the one that it names. -/
theorem registers_write (address value : UInt8) (t : Transceiver σ) {i : Fin 128}
    (hi : i ≠ Spi.Chip.register (writeWord address)) :
    (Spi.Memory.registers (RegisterBank.write address value t).2.bus).get i =
      (Spi.Memory.registers t.bus).get i := by
  rw [bus_write]
  rcases registers_exchange (writeWord address) value t.bus with h | h
  · rw [h]
  · rw [h, Spi.Chip.stored]
    split
    · rfl
    · rw [RegisterFile.get_set, if_neg (Ne.symm hi)]

end Registers

end Transceiver

/-! ## The clock generator -/

namespace ClockSynth

variable {ι : Type} [I2c.Bus ι]

theorem bus_read (register : UInt8) (c : ClockSynth ι) :
    (RegisterBank.read register c).2.bus =
      (I2c.Bus.perform ⟨c.address, [register], 1⟩ c.bus).2 := by
  rw [read_apply]
  rfl

theorem bus_write (register value : UInt8) (c : ClockSynth ι) :
    (RegisterBank.write register value c).2.bus =
      (I2c.Bus.perform ⟨c.address, [register, value], 0⟩ c.bus).2 :=
  rfl

variable [I2c.Memory ι]

/-- A read changes no register. -/
theorem registers_read (register : UInt8) (c : ClockSynth ι) :
    I2c.Memory.registers (RegisterBank.read register c).2.bus = I2c.Memory.registers c.bus := by
  rw [bus_read]
  rcases I2c.Memory.perform ⟨c.address, [register], 1⟩ c.bus with h | ⟨_, n, -, h⟩
  · exact h
  · rw [h]
    match n with
    | 0 | 1 => rfl
    | n + 2 => rw [List.take_of_length_le (by simp)]; rfl

/-- A write changes no register but the one that it names. -/
theorem registers_write (register value : UInt8) (c : ClockSynth ι) {i : Fin 256}
    (hi : i ≠ register.toFin) :
    (I2c.Memory.registers (RegisterBank.write register value c).2.bus).get i =
      (I2c.Memory.registers c.bus).get i := by
  have hset : ((I2c.Memory.registers c.bus).set register.toFin value).get i =
      (I2c.Memory.registers c.bus).get i := by
    rw [RegisterFile.get_set, if_neg (Ne.symm hi)]
  rw [bus_write]
  rcases I2c.Memory.perform ⟨c.address, [register, value], 0⟩ c.bus with h | ⟨_, n, -, h⟩
  · rw [h]
    exact hset
  · rw [h]
    match n with
    | 0 | 1 => rfl
    | n + 2 =>
      rw [List.take_of_length_le (by simp)]
      exact hset

end ClockSynth

end RadioControl
