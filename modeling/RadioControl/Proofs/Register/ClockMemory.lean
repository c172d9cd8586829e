import Mathlib
import RadioControl.I2c.Chip
import RadioControl.Proofs.Register.Operation

/-!
# The clock generator as a memory

An operation of the clock generator is one transaction on its bus (`transaction`), which begins with
the number of a register. So the pointer of the chip, which every transaction moves, does not
matter, and with the chip in memory the clock generator is a memory of 256 registers.

* `perform_apply`: an operation is its transaction.
* `answer_transaction`, `registers_transaction`: what a transaction brings, and what it stores.

`registers_hold_what_was_acknowledged` says it of runs.
-/

namespace RadioControl

namespace ClockSynth

/-! ## Operations -/

/-- The transaction of an operation: it names the register, and then a byte is written or read. -/
def transaction (address : UInt8) (o : Operation) : I2c.Transaction :=
  let register := o.address revisionRegister
  match o.value? with
  | none => ⟨address, [register], 1⟩
  | some v => ⟨address, [register, v], 0⟩

theorem transaction_of_read {o : Operation} (h : o.value? = none) (address : UInt8) :
    transaction address o = ⟨address, [o.address revisionRegister], 1⟩ := by
  unfold transaction
  rw [h]

theorem transaction_of_write {o : Operation} {v : UInt8} (h : o.value? = some v)
    (address : UInt8) :
    transaction address o = ⟨address, [o.address revisionRegister, v], 0⟩ := by
  unfold transaction
  rw [h]

/-- The first byte that comes back, or zero if none does. -/
def firstByte {n : Nat} (bytes : Vector UInt8 n) : UInt8 := bytes.toList.headD 0

section Operations

variable {ι : Type} [I2c.Bus ι]

theorem readRegister_apply (register : UInt8) (c : ClockSynth ι) :
    readRegister register c =
      let out := I2c.Bus.perform ⟨c.address, [register], 1⟩ c.bus
      (out.1.map firstByte, { c with bus := out.2 }) := by
  have hfirst : (fun bytes : Vector UInt8 1 => bytes[0]) = firstByte := by
    funext bytes
    rw [firstByte, List.headD_eq_head?_getD, List.head?_eq_getElem?, Vector.getElem?_toList]
    simp
  rw [← hfirst]
  rfl

/-- An operation is one transaction. -/
theorem perform_apply (o : Operation) (c : ClockSynth ι) :
    o.perform c =
      let out := I2c.Bus.perform (transaction c.address o) c.bus
      (o.answer (out.1.map firstByte), { c with bus := out.2 }) := by
  cases o with
  | readRegister r =>
    exact congrArg (fun out => (Answer.byte out.1, out.2)) (readRegister_apply r c)
  | identify =>
    exact congrArg (fun out => (Answer.byte out.1, out.2)) (readRegister_apply revisionRegister c)
  | writeRegister r v =>
    have hdone : ∀ outcome : Except I2c.Fault (Vector UInt8 0),
        outcome.map (fun _ => ()) = (outcome.map firstByte).map fun _ => () := fun outcome => by
      cases outcome <;> rfl
    exact Prod.ext (congrArg Answer.done (hdone _)) rfl
  | write r v => rfl
  | read r =>
    show (Answer.shown (RegisterBank.read r c).1, (RegisterBank.read r c).2) = _
    rw [read_apply, readRegister_apply]
    rfl

end Operations

end ClockSynth

/-! ## The chip in memory -/

namespace I2c.Chip

/-- How a transaction with an address fails, if it does: as it is made to, or because the chip has
another address. -/
def fault? (c : Chip) (address : UInt8) : Option Fault :=
  c.failing.or (if c.address = address then none else some (.noAcknowledge .address))

theorem fault?_of_eq {c : Chip} {address : UInt8} (h : c.address = address) :
    c.fault? address = c.failing := by
  rw [fault?, if_pos h, Option.or_none]

theorem fault?_of_ne {c : Chip} {address : UInt8} (h : c.address ≠ address) :
    c.fault? address = some (c.failing.getD (.noAcknowledge .address)) := by
  rw [fault?, if_neg h]
  cases c.failing <;> rfl

/-- A transaction that fails changes nothing. -/
theorem perform_apply (t : Transaction) (c : Chip) :
    Bus.perform t c =
      match c.fault? t.address with
      | some fault => (.error fault, c)
      | none =>
        let out := (c.written t.written).fetchAll t.reads
        (.ok out.1, out.2) := by
  cases hfailing : c.failing with
  | some fault => simp [Bus.perform, fault?, hfailing]
  | none => by_cases h : c.address = t.address <;> simp [Bus.perform, fault?, hfailing, h]

theorem address_storeAll (c : Chip) (bs : List UInt8) : (c.storeAll bs).address = c.address := by
  induction bs generalizing c with
  | nil => rfl
  | cons b bs ih => exact ih _

theorem address_written (c : Chip) (bs : List UInt8) : (c.written bs).address = c.address := by
  cases bs with
  | nil => rfl
  | cons p bs => exact address_storeAll _ bs

theorem address_fetchAll (c : Chip) (n : Nat) : (c.fetchAll n).2.address = c.address := by
  induction n generalizing c with
  | zero => rfl
  | succ n ih => exact ih c.advance

theorem address_perform (t : Transaction) (c : Chip) :
    (Bus.perform t c).2.address = c.address := by
  rw [perform_apply]
  cases c.fault? t.address with
  | some fault => rfl
  | none => exact (address_fetchAll _ _).trans (address_written c _)

end I2c.Chip

namespace ClockSynth

section Transactions

variable (address : UInt8) (o : Operation) (c : I2c.Chip)

/-- A read brings the byte of the register that it names, wherever the pointer was. -/
theorem answer_transaction :
    o.answer ((I2c.Bus.perform (transaction address o) c).1.map firstByte) =
      o.answer (reported (c.fault? address)
        (c.registers.get (o.address revisionRegister).toFin)) := by
  cases hv : o.value? with
  | none =>
    rw [transaction_of_read hv, I2c.Chip.perform_apply]
    cases c.fault? address <;> rfl
  | some v =>
    rw [transaction_of_write hv, I2c.Chip.perform_apply]
    cases c.fault? address with
    | some fault => rfl
    | none => exact Operation.answer_ok_of_write hv _ _

/-- A write that does not fail sets the register that it names, and nothing else does. -/
theorem registers_transaction :
    (I2c.Bus.perform (transaction address o) c).2.registers =
      if c.fault? address = none then
        match o.value? with
        | none => c.registers
        | some v => c.registers.set (o.address revisionRegister).toFin v
      else c.registers := by
  cases hv : o.value? with
  | none =>
    rw [transaction_of_read hv, I2c.Chip.perform_apply]
    cases c.fault? address <;> rfl
  | some v =>
    rw [transaction_of_write hv, I2c.Chip.perform_apply]
    cases c.fault? address <;> rfl

end Transactions

/-! ## Attempts -/

/-- The switch of the chip is set. -/
def switched (failing : Option I2c.Fault) (c : ClockSynth (Traced I2c.Chip I2c.Transaction)) :
    ClockSynth (Traced I2c.Chip I2c.Transaction) :=
  { c with bus := c.bus.update fun chip => { chip with failing } }

/-- The byte that an attempt stores in register `r`, if the chip answers: that of a write to `r`
that is not made to fail. -/
def stored? (r : UInt8) (x : Attempt (Option I2c.Fault)) : Option UInt8 :=
  if x.failing = none ∧ x.operation.address revisionRegister = r then x.operation.value? else none

/-- The chip has one address, and is looked for at the other. -/
def Addressed (chip driver : UInt8) (c : ClockSynth (Traced I2c.Chip I2c.Transaction)) : Prop :=
  c.bus.state.address = chip ∧ c.address = driver

section Attempts

variable (x : Attempt (Option I2c.Fault)) (c : ClockSynth (Traced I2c.Chip I2c.Transaction))
  {chip driver : UInt8}

theorem make_apply :
    x.make switched c =
      let t := transaction c.address x.operation
      let out := I2c.Bus.perform t { c.bus.state with failing := x.failing }
      (x.operation.answer (out.1.map firstByte),
        { c with bus := ⟨out.2, c.bus.trace ++ [t]⟩ }) := by
  rw [Attempt.make_apply, perform_apply]
  rfl

theorem addressed_make (h : Addressed chip driver c) :
    Addressed chip driver (x.make switched c).2 := by
  rw [make_apply]
  exact ⟨(I2c.Chip.address_perform _ _).trans h.1, h.2⟩

theorem answer_make :
    (x.make switched c).1 = x.operation.answer
      (reported ({ c.bus.state with failing := x.failing }.fault? c.address)
        (c.bus.state.registers.get (x.operation.address revisionRegister).toFin)) := by
  rw [make_apply]
  exact answer_transaction _ _ _

theorem registers_make :
    (x.make switched c).2.bus.state.registers =
      if { c.bus.state with failing := x.failing }.fault? c.address = none then
        match x.operation.value? with
        | none => c.bus.state.registers
        | some v => c.bus.state.registers.set (x.operation.address revisionRegister).toFin v
      else c.bus.state.registers := by
  rw [make_apply]
  exact registers_transaction _ _ _

/-- A register takes what an attempt stores in it, or stays as it is. -/
theorem get_make (h : Addressed driver driver c) (r : UInt8) :
    (x.make switched c).2.bus.state.registers.get r.toFin =
      (stored? r x).getD (c.bus.state.registers.get r.toFin) := by
  have hfault : { c.bus.state with failing := x.failing }.fault? c.address = x.failing :=
    I2c.Chip.fault?_of_eq (h.1.trans h.2.symm)
  rw [registers_make, hfault, stored?]
  cases x.failing with
  | some fault => rfl
  | none =>
    rw [if_pos rfl]
    cases x.operation.value? with
    | none => simp
    | some v =>
      simp only [RegisterFile.get_set, UInt8.toFin_inj, true_and]
      split <;> rfl

/-- A read changes no register, and neither does an attempt that is made to fail. -/
theorem registers_make_of_still (h : x.operation.value? = none ∨ x.failing ≠ none) :
    (x.make switched c).2.bus.state.registers = c.bus.state.registers := by
  rw [registers_make]
  rcases h with hread | hfailing
  · rw [hread]
    exact ite_self _
  · obtain ⟨fault, hfault⟩ := Option.ne_none_iff_exists'.mp hfailing
    rw [hfault]
    rfl

/-- A chip with another address is not reached. -/
theorem registers_make_of_ne (h : Addressed chip driver c) (hne : chip ≠ driver) :
    (x.make switched c).2.bus.state.registers = c.bus.state.registers := by
  have hfault : { c.bus.state with failing := x.failing }.fault? c.address =
      some (x.failing.getD (.noAcknowledge .address)) :=
    I2c.Chip.fault?_of_ne fun heq => hne (h.1.symm.trans (heq.trans h.2))
  rw [registers_make, hfault]
  rfl

end Attempts

section Runs

variable (xs : List (Attempt (Option I2c.Fault)))
  {c : ClockSynth (Traced I2c.Chip I2c.Transaction)} {chip driver : UInt8}

theorem addressed_attemptAll (h : Addressed chip driver c) :
    Addressed chip driver (attemptAll switched xs c).2 :=
  keeps_mapM_apply (Addressed chip driver) (fun x c => addressed_make x c) xs h

theorem get_attemptAll (h : Addressed driver driver c) (r : UInt8) :
    (attemptAll switched xs c).2.bus.state.registers.get r.toFin =
      (latestStored (stored? r) xs).getD (c.bus.state.registers.get r.toFin) :=
  holds_mapM_apply (Addressed driver driver) (fun c => c.bus.state.registers.get r.toFin)
    (fun x c => addressed_make x c) (fun x c h => get_make x c h r) xs h

theorem registers_attemptAll_of_ne (h : Addressed chip driver c) (hne : chip ≠ driver) :
    (attemptAll switched xs c).2.bus.state.registers = c.bus.state.registers := by
  have hrun : Addressed chip driver (attemptAll switched xs c).2 ∧
      (attemptAll switched xs c).2.bus.state.registers = c.bus.state.registers :=
    keeps_mapM_apply
      (fun c' => Addressed chip driver c' ∧ c'.bus.state.registers = c.bus.state.registers)
      (fun x c' hc => ⟨addressed_make x c' hc.1, (registers_make_of_ne x c' hc.1 hne).trans hc.2⟩)
      xs ⟨h, rfl⟩
  exact hrun.2

end Runs

/-- **The clock generator is a memory of 256 registers.** In a run of operations, each with its own
failure, every operation is one transaction, at the low seven bits of the address that the driver is
given. If the chip has this address,

* a register holds the byte of the latest write to it that was not made to fail, or what it held
  before the run;
* an operation that is not made to fail succeeds, and a read brings the byte of its register,
  wherever the pointer was;
* a read changes no register, and neither does an operation that is made to fail.

If the chip has another address, every operation fails and no register ever changes. -/
theorem registers_hold_what_was_acknowledged (earlier later : List (Attempt (Option I2c.Fault)))
    (x : Attempt (Option I2c.Fault)) (bus : Traced I2c.Chip I2c.Transaction) (address : UInt8) :
    let start := atAddress bus address
    let before := (attemptAll switched earlier start).2.bus
    let after := (attemptAll switched (earlier ++ [x]) start).2.bus
    let answer? := (attemptAll switched (earlier ++ x :: later) start).1[earlier.length]?
    let latest (r : UInt8) :=
      (latestStored (stored? r) earlier).getD (bus.state.registers.get r.toFin)
    after.trace = before.trace ++ [transaction (address &&& 0x7F) x.operation] ∧
    (bus.state.address = address &&& 0x7F →
      (∀ r : UInt8, before.state.registers.get r.toFin = latest r) ∧
      answer? = some (x.operation.answer
        (reported x.failing (latest (x.operation.address revisionRegister)))) ∧
      (x.operation.value? = none ∨ x.failing ≠ none →
        after.state.registers = before.state.registers)) ∧
    (bus.state.address ≠ address &&& 0x7F →
      answer? = some (x.operation.answer
        (.error (x.failing.getD (.noAcknowledge .address)))) ∧
      after.state.registers = bus.state.registers) := by
  intro start before after answer? latest
  have hstart : Addressed bus.state.address (address &&& 0x7F) start := ⟨rfl, rfl⟩
  have hbefore := addressed_attemptAll earlier hstart
  have hafter : after = (x.make switched (attemptAll switched earlier start).2).2.bus :=
    congrArg ClockSynth.bus (attemptAll_concat_apply switched earlier x start)
  have hanswer : answer? = some (x.make switched (attemptAll switched earlier start).2).1 :=
    getElem?_attemptAll switched earlier later x start
  rw [hafter, hanswer, answer_make]
  refine ⟨?_, fun heq => ?_, fun hne => ?_⟩
  · rw [make_apply, hbefore.2]
  · rw [heq] at hstart hbefore
    have hfault : { before.state with failing := x.failing }.fault? _ = x.failing :=
      I2c.Chip.fault?_of_eq (hbefore.1.trans hbefore.2.symm)
    have hget := get_attemptAll earlier hstart
    rw [hfault, hget]
    exact ⟨hget, rfl, registers_make_of_still x _⟩
  · have hfault : { before.state with failing := x.failing }.fault? _ =
        some (x.failing.getD (.noAcknowledge .address)) :=
      I2c.Chip.fault?_of_ne fun heq => hne (hbefore.1.symm.trans (heq.trans hbefore.2))
    rw [hfault]
    exact ⟨rfl, (registers_make_of_ne x _ hbefore hne).trans
      (registers_attemptAll_of_ne earlier hstart hne)⟩

/-- The last register is written, which leaves the pointer at the first; a write to the first is
made to fail, and a read shows the last. A chip at another address than 0x70 is not reached. -/
theorem last_register_is_read_back :
    let written : Attempt (Option I2c.Fault) := ⟨none, .write 255 0x21⟩
    let failed : Attempt (Option I2c.Fault) := ⟨some .overrun, .writeRegister 0 0x0E⟩
    let shown : Attempt (Option I2c.Fault) := ⟨none, .readRegister 255⟩
    let run (chip : I2c.Chip) (xs : List (Attempt (Option I2c.Fault))) :=
      attemptAll switched xs (atAddress ⟨chip, []⟩ 0xF0)
    let near : I2c.Chip := { address := 0x70, pointer := 0x33 }
    let far : I2c.Chip := { address := 0x71 }
    ((run near [written, failed, shown]).1[2]? = some (.byte (.ok 0x21)) ∧
      (run near [written, failed, shown]).2.bus.state.registers =
        (run near [written, failed]).2.bus.state.registers ∧
      (run near [written, failed, shown]).2.bus.trace =
        [⟨0x70, [255, 0x21], 0⟩, ⟨0x70, [0, 0x0E], 0⟩, ⟨0x70, [255], 1⟩]) ∧
    (run far [written, failed, shown]).1[2]? =
      some (.byte (.error (.noAcknowledge .address))) ∧
    (run far [written, failed, shown]).2.bus.state.registers = .zero := by
  intro written failed shown run near far
  obtain ⟨htrace, hnear, -⟩ :=
    registers_hold_what_was_acknowledged [written, failed] [] shown ⟨near, []⟩ 0xF0
  obtain ⟨-, -, hfar⟩ :=
    registers_hold_what_was_acknowledged [written, failed] [] shown ⟨far, []⟩ 0xF0
  obtain ⟨-, hbyte, hstill⟩ := hnear (by decide)
  obtain ⟨herror, hzero⟩ := hfar (by decide)
  exact ⟨⟨hbyte.trans (by decide), hstill (.inl rfl), htrace.trans (by decide)⟩, herror, hzero⟩

end ClockSynth

end RadioControl
