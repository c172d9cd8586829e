import Mathlib
import RadioControl.Proofs.Register.Operation
import RadioControl.Spi.Chip

/-!
# The course of an exchange

An exchange with the transceiver has up to four steps, and each can fail. `Spi.course` says how they
go on a bus, and the rest follows from it: which steps are taken (`Course.events`), and what comes
of the exchange (`Course.outcome`).

* `exchange_apply`, `trace_exchange`: an exchange goes as its course says.
* `perform_apply`: an operation of the driver is one exchange, and its answer is the outcome.

`chip_select_discipline` says it of each operation of a run.
-/

namespace RadioControl

namespace Spi

/-- How a step fails, if it does. -/
def fault? {α : Type} : Except Fault α → Option Fault
  | .error fault => some fault
  | .ok _ => none

/-- How each step of an exchange fails, if it does and if it comes to it; and the second word that
comes back. -/
structure Course where
  select : Option Fault
  exchange : Option Fault
  flush : Option Fault
  deselect : Option Fault
  answer : UInt8
  deriving DecidableEq

namespace Course

/-- The steps that are taken. A chip that has been selected is deselected. -/
def events (c : Course) (first second : UInt8) : List Event :=
  if c.select.isSome then [.select]
  else if c.exchange.isSome then [.select, .exchange first second, .deselect]
  else [.select, .exchange first second, .flush, .deselect]

/-- The failure that is reported: that of the select, else the earlier one of the words and their
flush, else that of the deselect. -/
def error? (c : Course) : Option TransceiverError :=
  (c.select.map .chipSelect).or <|
    ((c.exchange.or c.flush).map .bus).or (c.deselect.map .chipSelect)

/-- What comes of the exchange: the word that comes back, unless a step fails. -/
def outcome (c : Course) : Except TransceiverError UInt8 := reported c.error? c.answer

/-- No step fails. -/
def Smooth (c : Course) : Prop :=
  c.select = none ∧ c.exchange = none ∧ c.flush = none ∧ c.deselect = none

instance instDecidableSmooth (c : Course) : Decidable c.Smooth :=
  inferInstanceAs (Decidable (_ ∧ _))

end Course

section Course

variable {σ : Type} [Bus σ]

/-- The bus when the chip is deselected: after the flush, or at once if the words do not get
through. -/
def atDeselect (first second : UInt8) (s : σ) : σ :=
  let sent := Bus.exchange first second (Bus.select s).2
  if (fault? sent.1).isSome then sent.2 else (Bus.flush sent.2).2

/-- How an exchange goes on a bus. -/
def course (first second : UInt8) (s : σ) : Course :=
  let selected := Bus.select s
  let sent := Bus.exchange first second selected.2
  { select := fault? selected.1
    exchange := fault? sent.1
    flush := fault? (Bus.flush sent.2).1
    deselect := fault? (Bus.deselect (atDeselect first second s)).1
    answer := (sent.1.toOption.map Prod.snd).getD 0 }

end Course

namespace Course

variable {c : Course}

theorem error?_eq_none_iff : c.error? = none ↔ c.Smooth := by
  simp only [error?, Smooth, Option.or_eq_none_iff, Option.map_eq_none_iff, and_assoc]

theorem outcome_of_smooth (h : c.Smooth) : c.outcome = .ok c.answer := by
  rw [outcome, error?_eq_none_iff.mpr h]
  rfl

theorem outcome_of_error {e : TransceiverError} (h : c.error? = some e) :
    c.outcome = .error e := by
  rw [outcome, h]
  rfl

theorem outcome_of_not_smooth (h : ¬c.Smooth) : ∃ e, c.outcome = .error e := by
  obtain ⟨e, he⟩ := Option.ne_none_iff_exists'.mp fun hnone => h (error?_eq_none_iff.mp hnone)
  exact ⟨e, outcome_of_error he⟩

/-- An exchange succeeds if and only if all its steps do. -/
theorem outcome_eq_ok_iff {v : UInt8} : c.outcome = .ok v ↔ c.Smooth ∧ c.answer = v := by
  by_cases h : c.Smooth
  · rw [outcome_of_smooth h, Except.ok.injEq]
    exact (and_iff_right h).symm
  · obtain ⟨e, he⟩ := outcome_of_not_smooth h
    rw [he]
    exact ⟨nofun, fun hc => absurd hc.1 h⟩

/-- What a register bank shows of an exchange. -/
theorem getD_outcome (c : Course) :
    c.outcome.toOption.getD 0 = if c.Smooth then c.answer else 0 := by
  split
  · rename_i h
    rw [outcome_of_smooth h]
    rfl
  · rename_i h
    obtain ⟨e, he⟩ := outcome_of_not_smooth h
    rw [he]
    rfl

/-- A chip that has been selected is deselected in the end. -/
theorem getLast?_events {first second : UInt8} (h : c.select = none) :
    (c.events first second).getLast? = some .deselect := by
  unfold events
  rw [h]
  cases c.exchange <;> rfl

/-- No other words are sent than those of the exchange. -/
theorem words_of_mem_events {first second a b : UInt8}
    (h : .exchange a b ∈ c.events first second) : a = first ∧ b = second := by
  unfold events at h
  split at h
  · simp at h
  · split at h <;> simpa using h

/-- The words are sent to a chip that has been selected, and is deselected afterwards. -/
theorem events_of_exchange {first second a b : UInt8} (h : .exchange a b ∈ c.events first second) :
    c.select = none ∧ ∃ between, (between = [] ∨ between = [.flush]) ∧
      c.events first second = .select :: .exchange a b :: (between ++ [.deselect]) := by
  obtain ⟨rfl, rfl⟩ := words_of_mem_events h
  unfold events at h ⊢
  cases hselect : c.select with
  | some fault => simp [hselect] at h
  | none =>
    refine ⟨rfl, ?_⟩
    cases c.exchange with
    | some fault => exact ⟨[], .inl rfl, rfl⟩
    | none => exact ⟨[.flush], .inr rfl, rfl⟩

end Course

end Spi

namespace Transceiver

/-! ## One exchange -/

section Exchange

variable {σ : Type} [Spi.Bus σ]

/-- A selected chip is sent the words, and they are flushed if they get through. -/
theorem exchangeSelected_apply (first second : UInt8) (s : σ) :
    let c := Spi.course first second s
    exchangeSelected first second (Spi.Bus.select s).2 =
      (match c.exchange.or c.flush with
        | some fault => .error fault
        | none => .ok c.answer, Spi.atDeselect first second s) := by
  simp only [exchangeSelected, bind_apply, Spi.course, Spi.atDeselect]
  cases (Spi.Bus.exchange first second (Spi.Bus.select s).2).1 with
  | error fault => rfl
  | ok words =>
    simp only [bind_apply]
    cases (Spi.Bus.flush (Spi.Bus.exchange first second (Spi.Bus.select s).2).2).1 <;> rfl

/-- An exchange goes as its course says. -/
theorem exchange_apply (first second : UInt8) (s : σ) :
    let c := Spi.course first second s
    exchange first second s = (c.outcome, if c.select.isSome then (Spi.Bus.select s).2
      else (Spi.Bus.deselect (Spi.atDeselect first second s)).2) := by
  intro c
  have hselect : c.select = Spi.fault? (Spi.Bus.select s).1 := rfl
  have hdeselect : c.deselect =
      Spi.fault? (Spi.Bus.deselect (Spi.atDeselect first second s)).1 := rfl
  unfold exchange Spi.Course.outcome Spi.Course.error?
  rw [bind_apply]
  cases hs : (Spi.Bus.select s).1 with
  | error fault =>
    rw [hselect, hs]
    rfl
  | ok _ =>
    rw [hs] at hselect
    simp only [bind_apply, exchangeSelected_apply, hselect]
    cases c.exchange.or c.flush with
    | some fault => rfl
    | none =>
      cases hd : (Spi.Bus.deselect (Spi.atDeselect first second s)).1 with
      | error fault =>
        rw [hdeselect, hd]
        rfl
      | ok _ =>
        rw [hdeselect, hd]
        rfl

theorem exchange_outcome (first second : UInt8) (s : σ) :
    (exchange first second s).1 = (Spi.course first second s).outcome := by
  rw [exchange_apply]

end Exchange

/-! ## The events of an exchange -/

section Events

variable {σ : Type} [Spi.Bus σ]

theorem state_atDeselect (first second : UInt8) (s : Traced σ Spi.Event) :
    (Spi.atDeselect first second s).state = Spi.atDeselect first second s.state := by
  unfold Spi.atDeselect
  exact apply_ite Traced.state _ _ _

/-- A recorded bus goes as the bus does. -/
theorem course_recorded (first second : UInt8) (s : Traced σ Spi.Event) :
    Spi.course first second s = Spi.course first second s.state := by
  unfold Spi.course
  rw [← state_atDeselect]
  rfl

theorem trace_atDeselect (first second : UInt8) (s : Traced σ Spi.Event) :
    (Spi.atDeselect first second s).trace =
      if (Spi.course first second s.state).exchange.isSome then
        s.trace ++ [Spi.Event.select, .exchange first second]
      else s.trace ++ [Spi.Event.select, .exchange first second, .flush] := by
  have hsent : (Spi.Bus.exchange first second (Spi.Bus.select s).2).2.trace =
      s.trace ++ [Spi.Event.select, .exchange first second] := List.append_assoc _ _ _
  have hflushed : (Spi.Bus.flush (Spi.Bus.exchange first second (Spi.Bus.select s).2).2).2.trace =
      s.trace ++ [Spi.Event.select, .exchange first second, .flush] := by
    show (Spi.Bus.exchange first second (Spi.Bus.select s).2).2.trace ++ [Spi.Event.flush] = _
    rw [hsent]
    exact List.append_assoc _ _ _
  unfold Spi.atDeselect
  rw [← hsent, ← hflushed]
  exact apply_ite Traced.trace _ _ _

/-- The steps that are recorded are those of the course. -/
theorem trace_exchange (first second : UInt8) (s : Traced σ Spi.Event) :
    (exchange first second s).2.trace =
      s.trace ++ (Spi.course first second s.state).events first second := by
  rw [exchange_apply, course_recorded]
  unfold Spi.Course.events
  cases (Spi.course first second s.state).select with
  | some fault => rfl
  | none =>
    show (Spi.atDeselect first second s).trace ++ [Spi.Event.deselect] = s.trace ++ ite _ _ _
    rw [trace_atDeselect]
    split <;> exact List.append_assoc _ _ _

end Events

/-! ## Operations -/

section Operations

variable {σ : Type} [Spi.Bus σ]

/-- The words that an operation sends: the low seven bits of the address, below a bit that is set
for a write, and then the byte to write or zero. The chip identifies itself at address 4. -/
def words (o : Operation) : UInt8 × UInt8 :=
  let address := o.address 0x04
  match o.value? with
  | none => (address &&& 0x7F, 0)
  | some v => (0x80 ||| (address &&& 0x7F), v)

/-- An operation is one exchange. -/
theorem perform_apply (o : Operation) (t : Transceiver σ) :
    o.perform t =
      let out := exchange (words o).1 (words o).2 t.bus
      (o.answer out.1, ⟨out.2⟩) := by
  cases o with
  | readRegister a | writeRegister a v | identify | write a v => rfl
  | read a =>
    show (Answer.shown (RegisterBank.read a t).1, (RegisterBank.read a t).2) = _
    rw [read_apply]
    rfl

end Operations

/-! ## Runs -/

section Runs

variable {σ : Type} [Spi.Bus σ]

/-- The bus changes by itself. -/
def drifted (drift : σ → σ) (t : Transceiver (Traced σ Spi.Event)) :
    Transceiver (Traced σ Spi.Event) :=
  ⟨t.bus.update drift⟩

/-- **The chip is selected before an exchange and deselected after it.** Operations follow one
another on a bus that may change in any way before each, and so fails where and how it likes. Each
operation is one exchange of the words that belong to it, and the course that the bus gives it says
which steps are taken and what the answer is:

* it succeeds if and only if all the steps do;
* a chip that has been selected is deselected in the end, whatever fails;
* words are sent only right after a select that worked, and with at most a flush in between the
  deselect follows. -/
theorem chip_select_discipline (earlier later : List (Attempt (σ → σ))) (x : Attempt (σ → σ))
    (t : Transceiver (Traced σ Spi.Event)) :
    let before := (attemptAll drifted earlier t).2
    let after := (attemptAll drifted (earlier ++ [x]) t).2
    let answer? := (attemptAll drifted (earlier ++ x :: later) t).1[earlier.length]?
    let sent := words x.operation
    let c := Spi.course sent.1 sent.2 (x.failing before.bus.state)
    let steps := c.events sent.1 sent.2
    after.bus.trace = before.bus.trace ++ steps ∧
    answer? = some (x.operation.answer c.outcome) ∧
    ((∃ v, c.outcome = .ok v) ↔ c.Smooth) ∧
    (c.select = none → steps.getLast? = some .deselect) ∧
    (∀ a b, .exchange a b ∈ steps → c.select = none ∧
      ∃ between, (between = [] ∨ between = [.flush]) ∧
        steps = .select :: .exchange a b :: (between ++ [.deselect])) := by
  intro before after answer? sent c steps
  have hmake : x.make drifted before =
      (x.operation.answer c.outcome,
        ⟨(exchange sent.1 sent.2 (before.bus.update x.failing)).2⟩) := by
    have hcourse : Spi.course sent.1 sent.2 (before.bus.update x.failing) = c :=
      course_recorded sent.1 sent.2 (before.bus.update x.failing)
    rw [Attempt.make_apply, perform_apply, ← hcourse, ← exchange_outcome]
    rfl
  have hafter : after = (x.make drifted before).2 := attemptAll_concat_apply drifted earlier x t
  have hanswer : answer? = some (x.make drifted before).1 :=
    getElem?_attemptAll drifted earlier later x t
  rw [hafter, hanswer, hmake]
  refine ⟨trace_exchange sent.1 sent.2 (before.bus.update x.failing), rfl, ?_, fun hselect => ?_,
    fun a b h => Spi.Course.events_of_exchange h⟩
  · simp only [Spi.Course.outcome_eq_ok_iff, exists_and_left, exists_eq', and_true]
  · exact Spi.Course.getLast?_events hselect

/-- A chip that cannot be selected, words that get lost, a read that succeeds, and then a write:
both its flush and its deselect fail. The chip is deselected all the same, and the failure of the
flush is reported. Bit 7 of the first word is that of the operation, whatever the address has
there. -/
theorem flush_failure_is_reported :
    let broken (failing : Spi.Switches) : Spi.Chip → Spi.Chip := fun c => { c with failing }
    let t : Transceiver (Traced Spi.Chip Spi.Event) := ⟨{ state := {} }⟩
    let refused : Attempt (Spi.Chip → Spi.Chip) := ⟨broken { select := true }, .read 0x04⟩
    let lost : Attempt (Spi.Chip → Spi.Chip) := ⟨broken { exchange := some .modeFault }, .identify⟩
    let shown : Attempt (Spi.Chip → Spi.Chip) := ⟨broken {}, .readRegister 0x93⟩
    let written : Attempt (Spi.Chip → Spi.Chip) :=
      ⟨broken { flush := some .overrun, deselect := true }, .writeRegister 0x09 0xC5⟩
    (attemptAll drifted [refused, lost, shown, written] t).1[3]? =
      some (.done (.error (.bus .overrun))) ∧
    (attemptAll drifted [refused, lost, shown, written] t).2.bus.trace =
      [.select,
        .select, .exchange 0x04 0x00, .deselect,
        .select, .exchange 0x13 0x00, .flush, .deselect,
        .select, .exchange 0x89 0xC5, .flush, .deselect] := by
  intro broken t refused lost shown written
  obtain ⟨htrace, hanswer, -⟩ := chip_select_discipline [refused, lost, shown] [] written t
  have hall : [refused, lost, shown] ++ [written] = [refused, lost, shown, written] := rfl
  have hlast : [refused, lost, shown].length = 3 := rfl
  rw [hall, hlast] at hanswer
  rw [hall] at htrace
  rw [hanswer, htrace]
  decide +kernel

end Runs

end Transceiver

end RadioControl
