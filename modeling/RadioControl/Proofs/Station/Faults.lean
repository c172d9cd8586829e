import Mathlib
import RadioControl.Board.Memory
import RadioControl.I2c.Chip
import RadioControl.Proofs.Frame.Response
import RadioControl.Proofs.Radio.Devices
import RadioControl.Proofs.Register.Operation
import RadioControl.Proofs.Station.Loop
import RadioControl.Spi.Chip

/-!
# Buses that fail

Two stations take the same inputs, on buses that fail at different times and in different ways. When
and how a bus fails is up to its state (`Planned` is a bus whose state is a plan of failures), so
that two courses of failures are two states, and nothing is asked of the chips of the two stations.

* `transcript`: the requests that a run completes, each with the frame that goes out for it.
* `Lockstep`: what a request, a reset and a drift of the board keep true of two radios, and what
  is then true of the two frames that go out. `Lockstep.listen` is the run.
* `lockstep_board`: so it is with two radios that agree on the transfer engine and the board, and
  `lockstep_of_confined` with two that agree on a chip.

`faults_contained` puts them together.
-/

namespace RadioControl

/-! ## What a failure can do to a frame -/

namespace Response

/-- A single reply is in bytes 2 and 3. -/
theorem toFrame_fill_singleton (r : Response) (t : Tuple) :
    (r.fill [t]).toFrame = (r.toFrame.set 2 t.address).set 3 t.data := by
  have hstore : (r.fill [t]).toFrame =
      (r.toFrame.setIfInBounds 2 t.address).setIfInBounds 3 t.data := by
    rw [fill_singleton, toFrame_setTuple]
    rfl
  apply Vector.ext
  intro k hk
  simp only [hstore, Vector.getElem_setIfInBounds, Vector.getElem_set]

/-- What the first reply has in the place of data is in byte 3 alone. -/
theorem get_toFrame_fill (r : Response) (address v w : UInt8) {k : Fin 16} (hk : k.val ≠ 3) :
    (r.fill [⟨address, v⟩]).toFrame.get k = (r.fill [⟨address, w⟩]).toFrame.get k := by
  rw [toFrame_fill_singleton, toFrame_fill_singleton, Vector.get_eq_getElem, Vector.get_eq_getElem,
    Vector.getElem_set_ne _ _ (Ne.symm hk), Vector.getElem_set_ne _ _ (Ne.symm hk)]

end Response

namespace Request

/-- The request reads a register of a chip. -/
def IsChipRead (q : Request) : Prop :=
  (q.control.device = .transceiver ∨ q.control.device = .clockSynth) ∧
    q.control.direction? = some .read

/-- Two frames for a request differ in byte 3 at most, the data of the first tuple, and there only
if the request reads a register of a chip. -/
def Contained (q : Request) (f f' : Frame) : Prop :=
  (∀ k : Fin 16, k.val ≠ 3 → f.get k = f'.get k) ∧ (¬q.IsChipRead → f = f')

theorem Contained.of_eq {q : Request} {f f' : Frame} (h : f = f') : q.Contained f f' :=
  ⟨fun _ _ => h ▸ rfl, fun _ => h⟩

/-- Only the data in the reply to a read depends on the chip. -/
theorem contained_access {ρ : Type} [RegisterBank ρ] {q : Request}
    (hq : q.control.device = .transceiver ∨ q.control.device = .clockSynth) (s s' : ρ)
    (preset : Response) :
    q.Contained (preset.fill (q.access s).1).toFrame (preset.fill (q.access s').1).toFrame := by
  cases hd : q.control.direction? with
  | none =>
    rw [access_of_undirected hd, access_of_undirected hd]
    exact .of_eq rfl
  | some d =>
    cases d with
    | write =>
      rw [access_of_write hd, access_of_write hd]
      exact .of_eq rfl
    | read =>
      rw [access_of_read hd, access_of_read hd]
      exact ⟨fun k hk => preset.get_toFrame_fill _ _ _ hk, fun h => absurd ⟨hq, hd⟩ h⟩

end Request

namespace Station

/-! ## Runs with their requests -/

section Transcript

variable {τ κ β : Type}

/-- The requests that an input completes, and the framer after it. -/
def completes : Input β → Framer → List Request × Framer
  | .chunk bytes, framer => ((framer.feed bytes).1.map Request.ofFrame, (framer.feed bytes).2)
  | .failure, _ => ([], .empty)
  | .drift _, framer => ([], framer)

/-- The requests that the inputs of a run complete. -/
def requests : List (Input β) → Framer → List Request
  | [], _ => []
  | i :: is, framer => (completes i framer).1 ++ requests is (completes i framer).2

variable [RegisterBank τ] [RegisterBank κ] [Board β]

/-- The requests of a run, each with the frame that goes out for it. -/
def transcript (is : List (Input β)) (s : Station τ κ β) : List (Request × Frame) :=
  (requests is s.framer).zip (listen is s).1.flatten

/-- Every request is answered once. -/
theorem length_hear (i : Input β) (s : Station τ κ β) :
    (hear i s).1.length = (completes i s.framer).1.length := by
  cases i with
  | chunk bs =>
    rw [hear_chunk, receiveAll_apply, List.length_map]
    exact (Radio.answerAll_separates _ s.radio).1
  | failure => rfl
  | drift change => rfl

theorem framer_hear (i : Input β) (s : Station τ κ β) :
    (hear i s).2.framer = (completes i s.framer).2 := by
  cases i with
  | chunk bs => rw [hear_chunk, receiveAll_apply, completes]
  | failure => rfl
  | drift change => rfl

theorem length_listen (is : List (Input β)) (s : Station τ κ β) :
    (listen is s).1.flatten.length = (requests is s.framer).length := by
  induction is generalizing s with
  | nil => rfl
  | cons i is ih =>
    simp only [listen_cons_apply, requests, List.flatten_cons, List.length_append, length_hear, ih,
      framer_hear]

theorem transcript_cons (i : Input β) (is : List (Input β)) (s : Station τ κ β) :
    transcript (i :: is) s =
      (completes i s.framer).1.zip (hear i s).1 ++ transcript is (hear i s).2 := by
  unfold transcript
  rw [requests, listen_cons_apply, List.flatten_cons,
    List.zip_append (length_hear i s).symm, framer_hear]

end Transcript

/-! ## Two runs side by side -/

section Lockstep

variable {τ κ β : Type} [RegisterBank τ] [RegisterBank κ] [Board β]
  {Related : Radio τ κ β → Radio τ κ β → Prop} {Same : Request → Frame → Frame → Prop}

/-- The same request, with frames that `Same` holds of. -/
def Matches (Same : Request → Frame → Frame → Prop) (x x' : Request × Frame) : Prop :=
  x.1 = x'.1 ∧ Same x.1 x.2 x'.2

/-- Whatever comes, two radios stay related, and `Same` holds of the frames that go out. -/
structure Lockstep (Related : Radio τ κ β → Radio τ κ β → Prop)
    (Same : Request → Frame → Frame → Prop) : Prop where
  answer : ∀ {r r'} (q : Request), Related r r' →
    Same q (Radio.answer q .zero r).1.toFrame (Radio.answer q .zero r').1.toFrame ∧
      Related (Radio.answer q .zero r).2 (Radio.answer q .zero r').2
  reset : ∀ {r r'}, Related r r' → Related r.reset r'.reset
  drift : ∀ {r r'} (change : β → β), Related r r' →
    Related { r with board := change r.board } { r' with board := change r'.board }

theorem Lockstep.answerAll (h : Lockstep Related Same) (qs : List Request)
    {r r' : Radio τ κ β} (hr : Related r r') :
    let out := Radio.answerAll qs r
    let out' := Radio.answerAll qs r'
    List.Forall₂ (Matches Same) (qs.zip (out.1.map Response.toFrame))
        (qs.zip (out'.1.map Response.toFrame)) ∧ Related out.2 out'.2 := by
  induction qs generalizing r r' with
  | nil => exact ⟨.nil, hr⟩
  | cons q qs ih =>
    obtain ⟨hframe, hq⟩ := h.answer q hr
    obtain ⟨hframes, hqs⟩ := ih hq
    simp only [Radio.answerAll_cons_apply, List.map_cons, List.zip_cons_cons]
    exact ⟨.cons ⟨rfl, hframe⟩ hframes, hqs⟩

/-- One input. -/
theorem Lockstep.hear (h : Lockstep Related Same) (i : Input β) {s s' : Station τ κ β}
    (hf : s.framer = s'.framer) (hr : Related s.radio s'.radio) :
    List.Forall₂ (Matches Same) ((completes i s.framer).1.zip (hear i s).1)
        ((completes i s'.framer).1.zip (Station.hear i s').1) ∧
      Related (Station.hear i s).2.radio (Station.hear i s').2.radio := by
  cases i with
  | chunk bs =>
    simp only [hear_chunk, receiveAll_apply, completes, hf]
    exact h.answerAll _ hr
  | failure => exact ⟨.nil, h.reset hr⟩
  | drift change => exact ⟨.nil, h.drift change hr⟩

/-- **Two runs.** -/
theorem Lockstep.listen (h : Lockstep Related Same) (is : List (Input β)) {s s' : Station τ κ β}
    (hf : s.framer = s'.framer) (hr : Related s.radio s'.radio) :
    let out := Station.listen is s
    let out' := Station.listen is s'
    List.Forall₂ (Matches Same) (transcript is s) (transcript is s') ∧
      out.2.framer = out'.2.framer ∧ Related out.2.radio out'.2.radio := by
  induction is generalizing s s' with
  | nil => exact ⟨.nil, hf, hr⟩
  | cons i is ih =>
    obtain ⟨hframes, hrest⟩ := h.hear i hf hr
    have hframer : (Station.hear i s).2.framer = (Station.hear i s').2.framer := by
      rw [framer_hear, framer_hear, hf]
    obtain ⟨hrun, hend⟩ := ih hframer hrest
    simp only [transcript_cons, listen_cons_apply]
    exact ⟨List.rel_append hframes hrun, hend⟩

end Lockstep

/-! ## What radios can agree on -/

section Agree

variable {τ κ β π : Type} [RegisterBank τ] [RegisterBank κ] [Board β]

/-- What does not reach the transfer engine is answered alike but for the data of a chip. -/
theorem contained_answer_other {q : Request} (hq : q.isMove = false) (preset : Response)
    (r r' : Radio τ κ β) :
    q.Contained (Radio.answer q preset r).1.toFrame (Radio.answer q preset r').1.toFrame := by
  cases hdev : q.control.device with
  | config =>
    have hdir : q.control.direction? = none := by
      simpa [Request.isMove, hdev] using hq
    rw [Radio.answer_of_undirected hdir, Radio.answer_of_undirected hdir]
    exact .of_eq rfl
  | transceiver =>
    rw [Radio.answer_of_transceiver hdev, Radio.answer_of_transceiver hdev]
    exact Request.contained_access (.inl hdev) r.transceiver r'.transceiver preset
  | clockSynth =>
    rw [Radio.answer_of_clock hdev, Radio.answer_of_clock hdev]
    exact Request.contained_access (.inr hdev) r.clock r'.clock preset
  | reserved =>
    rw [Radio.answer_of_reserved hdev, Radio.answer_of_reserved hdev]
    exact .of_eq rfl

/-- The chips do not matter to the transfer engine and the board, and hardly to the frames. -/
theorem lockstep_board : Lockstep (τ := τ) (κ := κ) (β := β)
    (fun r r' => (r.transfer, r.board) = (r'.transfer, r'.board)) Request.Contained where
  answer {r r'} q hr := by
    cases hq : q.isMove with
    | true =>
      obtain ⟨hseen, hpart⟩ := Radio.confined_board.closed (i := .packet q .zero) hq hr
      have hresponse : (Radio.answer q .zero r).1 = (Radio.answer q .zero r').1 :=
        Option.some.inj (congrArg Radio.Seen.response? hseen)
      exact ⟨.of_eq (congrArg Response.toFrame hresponse), hpart⟩
    | false =>
      have hpart := fun r : Radio τ κ β =>
        Radio.confined_board.untouched (i := .packet q .zero) r hq
      exact ⟨contained_answer_other hq .zero r r', (hpart r).trans (hr.trans (hpart r').symm)⟩
  reset {r r'} hr := (Radio.confined_board.closed (i := .reset) rfl hr).2
  drift {r r'} change hr := by
    obtain ⟨ht, hb⟩ := Prod.ext_iff.mp hr
    exact Prod.ext ht (congrArg change hb)

/-- Nothing but a device matters to it and to the frames for it. -/
theorem lockstep_of_confined {d : Device} {part : Radio τ κ β → π}
    (h : Radio.Confined (Radio.Input.isFor d) Radio.Seen.response? part)
    (hdrift : ∀ (r : Radio τ κ β) (board : β), part { r with board } = part r) :
    Lockstep (fun r r' => part r = part r') fun q f f' => q.control.device = d → f = f' where
  answer {r r'} q hr := by
    by_cases hq : q.control.device = d
    · obtain ⟨hresponse, hpart⟩ := h.closed (i := .packet q .zero) (decide_eq_true hq) hr
      exact ⟨fun _ => congrArg Response.toFrame (Option.some.inj hresponse), hpart⟩
    · have hpart := fun r : Radio τ κ β =>
        h.untouched (i := .packet q .zero) r (decide_eq_false hq)
      exact ⟨fun hd => absurd hd hq, (hpart r).trans (hr.trans (hpart r').symm)⟩
  reset {r r'} hr :=
    have hpart := fun r : Radio τ κ β => h.untouched (i := .reset) r rfl
    (hpart r).trans (hr.trans (hpart r').symm)
  drift {r r'} change hr := (hdrift r _).trans (hr.trans (hdrift r' _).symm)

end Agree

end Station

/-! ## Failing reads -/

theorem Transceiver.read_of_error {σ : Type} [Spi.Bus σ] {address : UInt8} {t : Transceiver σ}
    {e : TransceiverError} (h : (readRegister address t).1 = .error e) :
    (RegisterBank.read address t).1 = 0 := by
  simp only [read_apply, h]
  rfl

theorem ClockSynth.read_of_error {ι : Type} [I2c.Bus ι] {register : UInt8} {c : ClockSynth ι}
    {e : I2c.Fault} (h : (readRegister register c).1 = .error e) :
    (RegisterBank.read register c).1 = 0 := by
  simp only [read_apply, h]
  rfl

namespace Radio

variable {σ ι β : Type} [Spi.Bus σ] [I2c.Bus ι] [Board β] {q : Request}

/-- Zero stands for what could not be read, beside the address of the request. -/
theorem answer_of_failed_read (hdir : q.control.direction? = some .read) (preset : Response)
    (r : Radio (Transceiver σ) (ClockSynth ι) β) :
    let address := (q.payload.get 0).address
    (q.control.device = .transceiver → ∀ e,
      (Transceiver.readRegister address r.transceiver).1 = .error e →
        (answer q preset r).1 = preset.fill [⟨address, 0⟩]) ∧
    (q.control.device = .clockSynth → ∀ e,
      (ClockSynth.readRegister address r.clock).1 = .error e →
        (answer q preset r).1 = preset.fill [⟨address, 0⟩]) := by
  refine ⟨fun hdev e he => ?_, fun hdev e he => ?_⟩
  · rw [answer_of_transceiver hdev]
    simp only [Request.access_of_read hdir, Transceiver.read_of_error he]
  · rw [answer_of_clock hdev]
    simp only [Request.access_of_read hdir, ClockSynth.read_of_error he]

end Radio

/-! ## Failing buses -/

/-- A bus that fails as planned. -/
structure Planned (σ ε : Type) where
  bus : σ
  /-- For each of the next steps, how it fails, if it does. -/
  plan : List (Option ε)

namespace Planned

variable {σ ε α : Type}

/-- A step of the bus; one that is to fail does not reach it. -/
def attempt (act : StateM σ (Except ε α)) : StateM (Planned σ ε) (Except ε α) := fun p =>
  match p.plan with
  | some fault :: plan => (.error fault, { p with plan })
  | plan => match act p.bus with
    | (outcome, bus) => (outcome, ⟨bus, plan.tail⟩)

instance instSpiBus {σ : Type} [Spi.Bus σ] : Spi.Bus (Planned σ Spi.Fault) where
  select := attempt Spi.Bus.select
  exchange first second := attempt (Spi.Bus.exchange first second)
  flush := attempt Spi.Bus.flush
  deselect := attempt Spi.Bus.deselect

instance instI2cBus {ι : Type} [I2c.Bus ι] : I2c.Bus (Planned ι I2c.Fault) where
  perform t := attempt (I2c.Bus.perform t)

end Planned

namespace Station

section Faults

variable {σ ι β : Type} [Spi.Bus σ] [I2c.Bus ι] [Board β]

/-- **Failures are contained.** Two stations that agree on the pending bytes, the transfer engine
and the board take the same inputs, and their buses may fail at any time and in any way. After any
inputs,

* both have sent one frame for each request, and they agree on the pending bytes, the transfer
  engine and the board with all the calls to it;
* the frames that they have sent are equal but for byte 3 of those that answer a read of a chip;
* if the stations begin with the same clock generator, whatever becomes of the transceiver, they
  have the same clock generator, and have sent the same frames for it;
* and the other way round.

A read of a chip that fails is answered with the address of the request in byte 2 and zero in byte
3. -/
theorem faults_contained
    {s s' : Station (Transceiver σ) (ClockSynth ι) (Traced β Board.Call)}
    (hframer : s.framer = s'.framer) (htransfer : s.radio.transfer = s'.radio.transfer)
    (hboard : s.radio.board = s'.radio.board) (is : List (Input (Traced β Board.Call))) :
    let out := listen is s
    let out' := listen is s'
    (out.1.flatten.length = (requests is s.framer).length ∧
      out'.1.flatten.length = (requests is s.framer).length) ∧
    (out.2.framer = out'.2.framer ∧ out.2.radio.transfer = out'.2.radio.transfer ∧
      out.2.radio.board = out'.2.radio.board) ∧
    List.Forall₂ (Matches Request.Contained) (transcript is s) (transcript is s') ∧
    (s.radio.clock = s'.radio.clock → out.2.radio.clock = out'.2.radio.clock ∧
      List.Forall₂ (Matches fun q f f' => q.control.device = .clockSynth → f = f')
        (transcript is s) (transcript is s')) ∧
    (s.radio.transceiver = s'.radio.transceiver →
      out.2.radio.transceiver = out'.2.radio.transceiver ∧
      List.Forall₂ (Matches fun q f f' => q.control.device = .transceiver → f = f')
        (transcript is s) (transcript is s')) ∧
    (∀ (q : Request) (preset : Response)
      (r : Radio (Transceiver σ) (ClockSynth ι) (Traced β Board.Call)),
      q.control.direction? = some .read →
      let address := (q.payload.get 0).address
      let zeroed := (preset.toFrame.set 2 address).set 3 0
      (q.control.device = .transceiver → ∀ e,
        (Transceiver.readRegister address r.transceiver).1 = .error e →
          (Radio.answer q preset r).1.toFrame = zeroed) ∧
      (q.control.device = .clockSynth → ∀ e,
        (ClockSynth.readRegister address r.clock).1 = .error e →
          (Radio.answer q preset r).1.toFrame = zeroed)) := by
  intro out out'
  obtain ⟨hframes, hframer', hpart⟩ :=
    lockstep_board.listen is hframer (Prod.ext htransfer hboard)
  obtain ⟨htransfer', hboard'⟩ := Prod.ext_iff.mp hpart
  refine ⟨⟨length_listen is s, ?_⟩, ⟨hframer', htransfer', hboard'⟩, hframes, fun hclock => ?_,
    fun htransceiver => ?_, fun q preset r hdir => ?_⟩
  · rw [hframer]
    exact length_listen is s'
  · have h := (lockstep_of_confined Radio.confined_clock fun _ _ => rfl).listen is hframer hclock
    exact ⟨h.2.2, h.1⟩
  · have h := (lockstep_of_confined Radio.confined_transceiver fun _ _ => rfl).listen is hframer
      htransceiver
    exact ⟨h.2.2, h.1⟩
  · obtain ⟨htransceiver, hclock⟩ := Radio.answer_of_failed_read hdir preset r
    have hzeroed := preset.toFrame_fill_singleton ⟨(q.payload.get 0).address, 0⟩
    exact ⟨fun hd e he => (congrArg Response.toFrame (htransceiver hd e he)).trans hzeroed,
      fun hd e he => (congrArg Response.toFrame (hclock hd e he)).trans hzeroed⟩

/-- The transceiver is read twice, with a read of the clock generator and half a write of the
control register in between. In one of two runs the first read fails at its last step: it is
answered with zero, and nothing else is different. -/
theorem failed_read_answers_zero :
    let chip : Spi.Chip := { registers := RegisterFile.zero.set 0x10 0x55 }
    let station (plan : List (Option Spi.Fault)) :
        Station (Transceiver (Planned Spi.Chip Spi.Fault))
          (ClockSynth (Planned I2c.Chip I2c.Fault)) (Traced (MemoryBoard Ticker) Board.Call) :=
      { radio := { transceiver := ⟨⟨chip, plan⟩⟩, clock := .factory ⟨{ address := 0x70 }, []⟩,
                   board := ⟨.boot ⟨0, 1⟩, []⟩ } }
    let shown : Request := .pack (.pack .read .transceiver 1) [⟨0x10, 0⟩]
    let clock : Request := .pack (.pack .read .clockSynth 1) [⟨0x1B, 0⟩]
    let move : Request := .pack (.pack .write .config 2) [⟨0, 0x11⟩, ⟨1, 0x22⟩]
    let is : List (Input (Traced (MemoryBoard Ticker) Board.Call)) :=
      [.chunk ([shown, clock, move, shown].flatMap Request.bytes)]
    let s := station []
    let s' := station [none, none, some .overrun]
    ((listen is s).2.radio.board = (listen is s').2.radio.board ∧
      (listen is s).2.radio.clock = (listen is s').2.radio.clock) ∧
    List.Forall₂ (Matches Request.Contained) (transcript is s) (transcript is s') ∧
    (Radio.answer shown .zero s'.radio).1.toFrame =
      #v[0, 0, 0x10, 0, 0, 0, 0, 0, 0, 0, 0, 0, 0, 0, 0, 0] ∧
    (listen is s).1.flatten.map (fun f => (f.get 2, f.get 3)) =
      [(0x10, 0x55), (0x1B, 0), (0, 0), (0x10, 0x55)] ∧
    (listen is s').1.flatten.map (fun f => (f.get 2, f.get 3)) =
      [(0x10, 0), (0x1B, 0), (0, 0), (0x10, 0x55)] := by
  intro chip station shown clock move is s s'
  have hframer : s.framer = s'.framer := rfl
  obtain ⟨-, ⟨-, -, hboard⟩, hframes, hclock, -, hfailed⟩ := faults_contained hframer rfl rfl is
  obtain ⟨hzero, -⟩ := hfailed shown .zero s'.radio (by decide)
  have herror : (Transceiver.readRegister 0x10 s'.radio.transceiver).1 =
      .error (.bus .overrun) := by decide
  exact ⟨⟨hboard, (hclock rfl).1⟩, hframes, (hzero (by decide) _ herror).trans (by decide),
    by decide +kernel, by decide +kernel⟩

end Faults

end Station

end RadioControl
