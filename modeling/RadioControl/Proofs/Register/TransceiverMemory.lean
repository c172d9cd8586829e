import Mathlib
import RadioControl.Proofs.Register.Memory

/-!
# The transceiver as a memory

With the chip in memory behind it the transceiver is a memory of 128 registers, whichever steps
fail. A write is stored as soon as its words reach the chip (`Switches.Reaches`), and a failure that
comes later is reported and undoes nothing.

* `outcome_chip`: how an exchange goes follows from the switches.
* `registers_chip`: what an exchange stores, and when.
* `get_make`: what an attempt stores in a register (`stored?`), or leaves there.

`registers_hold_what_arrived` says it of runs.
-/

namespace RadioControl

namespace Spi

namespace Switches

/-- How an exchange goes that brings back `answer`, if nothing fails. -/
def course (s : Switches) (answer : UInt8) : Course where
  select := if s.select then some .other else none
  exchange := s.exchange
  flush := s.flush
  deselect := if s.deselect then some .other else none
  answer := answer

/-- The words of an exchange reach the chip. -/
def Reaches (s : Switches) : Prop := s.select = false ∧ s.exchange = none

instance instDecidableReaches (s : Switches) : Decidable s.Reaches :=
  inferInstanceAs (Decidable (_ ∧ _))

theorem reaches_of_smooth {s : Switches} {answer : UInt8} (h : (s.course answer).Smooth) :
    s.Reaches := by
  obtain ⟨hselect, hexchange, -⟩ := h
  refine ⟨?_, hexchange⟩
  by_contra hs
  simp [course, hs] at hselect

end Switches

namespace Chip

section Steps

variable {c : Chip} {first second : UInt8}

theorem select_apply : Bus.select c =
    (outcome (if c.failing.select then some .other else none), c) := rfl

theorem exchange_of_none (h : c.failing.exchange = none) :
    Bus.exchange first second c = (.ok (0, c.registers.get (register first)),
      { c with registers := stored c.registers first second }) := by
  simp [Bus.exchange, h]

theorem exchange_of_some {fault : Fault} (h : c.failing.exchange = some fault) :
    Bus.exchange first second c = (.error fault, c) := by
  simp [Bus.exchange, h]

theorem flush_apply : Bus.flush c = (outcome c.failing.flush, c) := rfl

theorem deselect_apply : Bus.deselect c =
    (outcome (if c.failing.deselect then some .other else none), c) := rfl

theorem fault?_outcome (fault : Option Fault) : fault? (outcome fault) = fault := by
  cases fault <;> rfl

end Steps

/-- The steps of an exchange go as the switches say. -/
theorem course_chip (first second : UInt8) (c : Chip) :
    ∃ answer, course first second c = c.failing.course answer ∧
      (c.failing.exchange = none → answer = c.registers.get (register first)) := by
  cases h : c.failing.exchange with
  | none =>
    refine ⟨_, ?_, fun _ => rfl⟩
    simp only [course, atDeselect, Switches.course, select_apply, exchange_of_none h, flush_apply,
      deselect_apply, fault?_outcome, h]
    rfl
  | some fault =>
    refine ⟨0, ?_, fun hnone => absurd hnone (Option.some_ne_none fault)⟩
    simp only [course, atDeselect, Switches.course, select_apply, exchange_of_some h, flush_apply,
      deselect_apply, fault?_outcome, h]
    rfl

/-- What comes of an exchange follows from the switches and the register. -/
theorem outcome_chip (first second : UInt8) (c : Chip) :
    (course first second c).outcome =
      (c.failing.course (c.registers.get (register first))).outcome := by
  obtain ⟨answer, hcourse, hanswer⟩ := course_chip first second c
  rw [hcourse]
  cases h : c.failing.exchange with
  | none => rw [hanswer h]
  | some fault =>
    -- Where the words get lost, what would have come back does not matter.
    unfold Course.outcome Course.error? Switches.course
    rw [h]
    cases c.failing.select <;> rfl

theorem registers_atDeselect (first second : UInt8) (c : Chip) :
    (atDeselect first second c).registers =
      if c.failing.exchange = none then stored c.registers first second else c.registers := by
  unfold atDeselect
  rw [select_apply]
  cases h : c.failing.exchange with
  | none =>
    rw [exchange_of_none h]
    rfl
  | some fault =>
    rw [exchange_of_some h]
    rfl

/-- An exchange stores its second word once the words have reached the chip. -/
theorem registers_chip (first second : UInt8) (c : Chip) :
    (Transceiver.exchange first second c).2.registers =
      if c.failing.Reaches then stored c.registers first second else c.registers := by
  have hselect : (course first second c).select =
      if c.failing.select then some .other else none := fault?_outcome _
  rw [Transceiver.exchange_apply, hselect]
  by_cases h : c.failing.select
  · have hreaches : ¬c.failing.Reaches := fun hr => Bool.false_ne_true (hr.1.symm.trans h)
    rw [if_pos h, if_neg hreaches]
    rfl
  · have hreaches : c.failing.Reaches ↔ c.failing.exchange = none :=
      and_iff_right (Bool.eq_false_of_not_eq_true h)
    rw [if_neg h]
    simp only [hreaches]
    exact registers_atDeselect first second c

end Chip

end Spi

namespace Transceiver

/-! ## The address word -/

theorem toNat_readWord (address : UInt8) : (readWord address).toNat = address.toNat % 128 := by
  revert address
  exact forall_byte (by decide +kernel)

theorem toNat_writeWord (address : UInt8) :
    (writeWord address).toNat = 128 + address.toNat % 128 := by
  revert address
  exact forall_byte (by decide +kernel)

theorem writeWord_and (address : UInt8) : writeWord address &&& 0x80 ≠ 0 := by
  revert address
  exact forall_byte (by decide +kernel)

/-- The address word selects the register that the address names modulo 128. -/
theorem register_readWord (address : UInt8) :
    Spi.Chip.register (readWord address) = Spi.Chip.register address := by
  apply Fin.ext
  show (readWord address).toNat % 128 = address.toNat % 128
  rw [toNat_readWord, Nat.mod_mod]

theorem register_writeWord (address : UInt8) :
    Spi.Chip.register (writeWord address) = Spi.Chip.register address := by
  apply Fin.ext
  show (writeWord address).toNat % 128 = address.toNat % 128
  rw [toNat_writeWord]
  omega

/-- An operation reaches the register of its address. -/
theorem register_words (o : Operation) :
    Spi.Chip.register (words o).1 = Spi.Chip.register (o.address chipIdRegister) := by
  unfold words
  cases o.value? with
  | none => exact register_readWord _
  | some v => exact register_writeWord _

/-- The chip stores what an operation writes, and nothing else. -/
theorem stored_words (m : RegisterFile 128) (o : Operation) :
    Spi.Chip.stored m (words o).1 (words o).2 =
      match o.value? with
      | none => m
      | some v => m.set (Spi.Chip.register (o.address chipIdRegister)) v := by
  have hwritten := register_writeWord (o.address chipIdRegister)
  unfold words
  cases o.value? with
  | none => exact if_pos (readWord_and _)
  | some v => exact (if_neg (writeWord_and _)).trans (congrArg (m.set · v) hwritten)

/-! ## Attempts -/

/-- The switches of the chip are set. -/
def switched (failing : Spi.Switches) (t : Transceiver Spi.Chip) : Transceiver Spi.Chip :=
  ⟨{ t.bus with failing }⟩

/-- The byte that an attempt stores in register `r`: that of a write whose words reach the chip, and
whose address is `r` modulo 128. -/
def stored? (r : Fin 128) (x : Attempt Spi.Switches) : Option UInt8 :=
  if x.failing.Reaches ∧ (x.operation.address chipIdRegister).toNat % 128 = r.val then
    x.operation.value?
  else none

section Attempts

variable (x : Attempt Spi.Switches) (t : Transceiver Spi.Chip)

theorem answer_make :
    (x.make switched t).1 = x.operation.answer (x.failing.course
      (t.bus.registers.get (Spi.Chip.register (x.operation.address chipIdRegister)))).outcome := by
  rw [Attempt.make_apply, perform_apply]
  show x.operation.answer (exchange _ _ (switched x.failing t).bus).1 = _
  rw [exchange_outcome, Spi.Chip.outcome_chip, register_words]
  rfl

theorem registers_make :
    (x.make switched t).2.bus.registers =
      if x.failing.Reaches then
        match x.operation.value? with
        | none => t.bus.registers
        | some v => t.bus.registers.set
            (Spi.Chip.register (x.operation.address chipIdRegister)) v
      else t.bus.registers := by
  rw [Attempt.make_apply, perform_apply, ← stored_words]
  exact Spi.Chip.registers_chip _ _ _

/-- A register takes what an attempt stores in it, or stays as it is. -/
theorem get_make (r : Fin 128) :
    (x.make switched t).2.bus.registers.get r =
      (stored? r x).getD (t.bus.registers.get r) := by
  rw [registers_make]
  unfold stored?
  by_cases hreaches : x.failing.Reaches
  · rw [if_pos hreaches]
    cases x.operation.value? with
    | none => simp
    | some v =>
      have hregister : Spi.Chip.register (x.operation.address chipIdRegister) = r ↔
          (x.operation.address chipIdRegister).toNat % 128 = r.val := Fin.ext_iff
      simp only [RegisterFile.get_set, hregister, hreaches, true_and]
      split <;> rfl
  · rw [if_neg hreaches, if_neg fun h => hreaches h.1]
    rfl

end Attempts

/-- **The transceiver is a memory of 128 registers.** In a run of operations, each with its own
failures,

* a register holds the byte of the latest write with its address, modulo 128, whose words reached
  the chip, or what it held before the run, whatever else has failed;
* the answer follows from the register that the operation names and from the failures: a byte that
  is read without a failure is the one in the register, and a write without a failure is stored;
* a read changes no register, and neither does an operation whose words do not reach the chip. -/
theorem registers_hold_what_arrived (earlier later : List (Attempt Spi.Switches))
    (x : Attempt Spi.Switches) (t : Transceiver Spi.Chip) :
    let before := (attemptAll switched earlier t).2.bus.registers
    let after := (attemptAll switched (earlier ++ [x]) t).2.bus.registers
    let answer? := (attemptAll switched (earlier ++ x :: later) t).1[earlier.length]?
    let register := Spi.Chip.register (x.operation.address chipIdRegister)
    let c := x.failing.course (before.get register)
    (∀ r, before.get r = (latestStored (stored? r) earlier).getD (t.bus.registers.get r)) ∧
    answer? = some (x.operation.answer c.outcome) ∧
    (∀ v, answer? = some (.byte (.ok v)) → v = before.get register) ∧
    (∀ v, answer? = some (.shown v) →
      v = if c.Smooth then before.get register else 0) ∧
    (∀ v, x.operation.value? = some v → answer? = some (.done (.ok ())) →
      after.get register = v) ∧
    (x.operation.value? = none → after = before) ∧
    (¬x.failing.Reaches → after = before) := by
  intro before after answer? register c
  have hafter : after = (x.make switched (attemptAll switched earlier t).2).2.bus.registers :=
    congrArg (fun t => t.bus.registers) (attemptAll_concat_apply switched earlier x t)
  have hanswer : answer? = some (x.operation.answer c.outcome) :=
    (getElem?_attemptAll switched earlier later x t).trans (congrArg some (answer_make x _))
  rw [hafter, hanswer, registers_make]
  refine ⟨fun r => ?_, rfl, fun v h => ?_, fun v h => ?_, fun v hv h => ?_, fun hv => ?_,
    fun hreaches => if_neg hreaches⟩
  · exact holds_mapM_apply (fun _ => True) (fun t => t.bus.registers.get r) (fun _ _ _ => trivial)
      (fun x t _ => get_make x t r) earlier trivial
  · have hok := Operation.answer_eq_byte (Option.some.inj h)
    exact (Spi.Course.outcome_eq_ok_iff.mp hok).2.symm
  · exact (Operation.answer_eq_shown (Option.some.inj h)).trans (Spi.Course.getD_outcome c)
  · obtain ⟨b, hok⟩ := Operation.answer_eq_done_ok (Option.some.inj h)
    have hreaches := Spi.Switches.reaches_of_smooth (Spi.Course.outcome_eq_ok_iff.mp hok).1
    rw [if_pos hreaches, hv]
    simp only [RegisterFile.get_set]
    exact if_pos rfl
  · rw [hv]
    exact ite_self _

/-- Three writes to register 5, by two of its addresses. The first succeeds; the second fails in its
flush, and is stored all the same; the words of the third are lost. A read shows the second. -/
theorem failed_flush_has_stored :
    let t : Transceiver Spi.Chip := ⟨{}⟩
    let stored : Attempt Spi.Switches := ⟨{}, .writeRegister 0x85 0x11⟩
    let late : Attempt Spi.Switches := ⟨{ flush := some .overrun }, .writeRegister 0x05 0x32⟩
    let lost : Attempt Spi.Switches := ⟨{ exchange := some .modeFault }, .write 0x05 0x77⟩
    let shown : Attempt Spi.Switches := ⟨{}, .readRegister 0x85⟩
    let registers (xs : List (Attempt Spi.Switches)) :=
      (attemptAll switched xs t).2.bus.registers
    let answers := (attemptAll switched [stored, late, lost, shown] t).1
    (answers[0]? = some (.done (.ok ())) ∧ (registers [stored]).get 5 = 0x11) ∧
    answers[1]? = some (.done (.error (.bus .overrun))) ∧
    registers [stored, late, lost] = registers [stored, late] ∧
    (answers[3]? = some (.byte (.ok 0x32)) ∧ (registers [stored, late, lost]).get 5 = 0x32 ∧
      registers [stored, late, lost, shown] = registers [stored, late, lost]) := by
  intro t stored late lost shown registers answers
  obtain ⟨-, hdone, -, -, hkept, -, -⟩ :=
    registers_hold_what_arrived [] [late, lost, shown] stored t
  obtain ⟨-, herror, -⟩ := registers_hold_what_arrived [stored] [lost, shown] late t
  obtain ⟨-, -, -, -, -, -, hlost⟩ := registers_hold_what_arrived [stored, late] [shown] lost t
  obtain ⟨hlatest, hbyte, -, -, -, hread, -⟩ :=
    registers_hold_what_arrived [stored, late, lost] [] shown t
  have hfive : 5 = Spi.Chip.register 0x85 := by decide
  have hfirst : (registers [stored]).get 5 = 0x11 := by
    rw [hfive]
    exact hkept 0x11 rfl (by decide)
  exact ⟨⟨hdone.trans (by decide), hfirst⟩, herror.trans (by decide), hlost (by decide),
    hbyte.trans (by decide), (hlatest 5).trans (by decide), hread rfl⟩

end Transceiver

end RadioControl
