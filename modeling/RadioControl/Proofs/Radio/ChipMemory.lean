import Mathlib
import RadioControl.Board.Memory
import RadioControl.Proofs.Frame.Response
import RadioControl.Proofs.Radio.Devices
import RadioControl.Register.File

/-!
# The chips as memories

With a plain register file in the place of each chip, what the host sees of a chip is a memory: a
read shows the byte of the latest write to its address. The two register files are recorded, so that
every access counts.

* `answer_of_chip`: a request for a chip is its access, and reaches nothing else.
* `registers_feed`, `registers_feedAll`: after an input, and so after a run, a register holds the
  byte of the latest write to it.

`chips_are_memories` says it of each packet of a run.
-/

namespace RadioControl

/-- A plain register file that records its accesses. -/
abbrev RecordedFile := Traced (RegisterFile 256) RegisterAccess

namespace Request

variable {q : Request}

theorem file_read (h : q.control.direction? = some .read) (m : RecordedFile) :
    q.access m =
      let address := (q.payload.get 0).address
      let value := m.state.get address.toFin
      ([⟨address, value⟩], ⟨m.state, m.trace ++ [.read address value]⟩) :=
  access_of_read h m

theorem file_write (h : q.control.direction? = some .write) (m : RecordedFile) :
    q.access m =
      let first := q.payload.get 0
      ([⟨first.address, 0⟩], ⟨m.state.set first.address.toFin first.data,
        m.trace ++ [.write first.address first.data]⟩) :=
  access_of_write h m

/-- An access that writes sets the register that its first tuple names, and no other does. -/
theorem get_access (q : Request) (m : RecordedFile) (address : UInt8) :
    (q.access m).2.state.get address.toFin =
      if q.control.direction? = some .write ∧ (q.payload.get 0).address = address then
        (q.payload.get 0).data
      else m.state.get address.toFin := by
  cases hd : q.control.direction? with
  | none =>
    rw [access_of_undirected hd]
    rfl
  | some d =>
    cases d with
    | read =>
      rw [file_read hd]
      rfl
    | write =>
      rw [file_write hd]
      simp only [RegisterFile.get_set, UInt8.toFin_inj, true_and]

end Request

namespace Radio

/-- One of the chips of a radio. -/
inductive Chip where
  | transceiver
  | clock
  deriving DecidableEq, Repr

/-- The device that requests name to reach the chip. -/
def Chip.device : Chip → Device
  | .transceiver => .transceiver
  | .clock => .clockSynth

section Chips

variable {ρ β : Type}

/-- The state of a chip. -/
def chip (r : Radio ρ ρ β) : Chip → ρ
  | .transceiver => r.transceiver
  | .clock => r.clock

/-- The radio with another state of a chip. -/
def setChip (r : Radio ρ ρ β) (c : Chip) (s : ρ) : Radio ρ ρ β :=
  match c with
  | .transceiver => { r with transceiver := s }
  | .clock => { r with clock := s }

@[simp] theorem chip_setChip (r : Radio ρ ρ β) (c c' : Chip) (s : ρ) :
    (r.setChip c s).chip c' = if c = c' then s else r.chip c' := by
  cases c <;> cases c' <;> rfl

@[simp] theorem transfer_setChip (r : Radio ρ ρ β) (c : Chip) (s : ρ) :
    (r.setChip c s).transfer = r.transfer := by
  cases c <;> rfl

@[simp] theorem board_setChip (r : Radio ρ ρ β) (c : Chip) (s : ρ) :
    (r.setChip c s).board = r.board := by
  cases c <;> rfl

end Chips

/-! ## One input -/

section Inputs

variable {ρ β : Type} [RegisterBank ρ] [Board β] {q : Request} {c : Chip}

/-- A request for a chip is its access, and reaches nothing else. -/
theorem answer_of_chip (h : q.control.device = c.device) (preset : Response) (r : Radio ρ ρ β) :
    answer q preset r =
      let a := q.access (r.chip c)
      (preset.fill a.1, r.setChip c a.2) := by
  cases c with
  | transceiver => exact answer_of_transceiver h preset r
  | clock => exact answer_of_clock h preset r

/-- An input that is no request for a chip does not reach it. -/
theorem chip_feed {i : Input} (h : i.isFor c.device = false) (r : Radio ρ ρ β) :
    (feed i r).2.chip c = r.chip c := by
  cases c with
  | transceiver => exact confined_transceiver.untouched r h
  | clock => exact confined_clock.untouched r h

end Inputs

/-- The byte of the latest write to a register of a device. -/
def latestByte (device : Device) (address : UInt8) (is : List Input) : Option UInt8 :=
  is.reverse.findSome? (Input.written? device address)

section Runs

variable {β : Type} [Board β]

theorem registers_feed (c : Chip) (address : UInt8) (i : Input)
    (r : Radio RecordedFile RecordedFile β) :
    ((feed i r).2.chip c).state.get address.toFin =
      (i.written? c.device address).getD ((r.chip c).state.get address.toFin) := by
  cases i with
  | reset => cases c <;> rfl
  | packet q preset =>
    by_cases hdev : q.control.device = c.device
    · rw [feed_packet, answer_of_chip hdev, Input.written?]
      simp only [chip_setChip, if_true, Request.get_access, ControlByte.direction?_eq_write_iff,
        hdev, true_and, and_assoc]
      split <;> rfl
    · have hother : (Input.packet q preset).isFor c.device = false := decide_eq_false hdev
      rw [chip_feed hother, Input.written?, if_neg fun h => hdev h.1]
      rfl

/-- After a run a register holds the byte of the latest write to it. -/
theorem registers_feedAll (c : Chip) (address : UInt8) (is : List Input)
    (r : Radio RecordedFile RecordedFile β) :
    ((feedAll is r).2.chip c).state.get address.toFin =
      (latestByte c.device address is).getD ((r.chip c).state.get address.toFin) :=
  holds_mapM_apply (fun _ => True)
    (fun r : Radio RecordedFile RecordedFile β => (r.chip c).state.get address.toFin)
    (fun _ _ _ => trivial) (fun i r _ => registers_feed c address i r) is trivial

end Runs

/-! ## Each packet of a run -/

section Packets

variable {β : Type}

/-- A chip has recorded one access more, and the other chip is as it was. -/
structure Accessed (c : Chip) (access : RegisterAccess)
    (before after : Radio RecordedFile RecordedFile β) : Prop where
  recorded : (after.chip c).trace = (before.chip c).trace ++ [access]
  others : ∀ c' ≠ c, after.chip c' = before.chip c'

theorem accessed_setChip (c : Chip) (access : RegisterAccess) (m : RegisterFile 256)
    (r : Radio RecordedFile RecordedFile β) :
    Accessed c access r (r.setChip c ⟨m, (r.chip c).trace ++ [access]⟩) where
  recorded := by rw [chip_setChip, if_pos rfl]
  others c' hc := by rw [chip_setChip, if_neg (Ne.symm hc)]

variable [Board β] {q : Request} {c : Chip}

/-- A read shows a register, and changes none. -/
theorem feed_chip_read (hdev : q.control.device = c.device) (hr : q.control.readBit = true)
    (preset : Response) (r : Radio RecordedFile RecordedFile β) :
    let address := (q.payload.get 0).address
    let value := (r.chip c).state.get address.toFin
    let out := feed (.packet q preset) r
    out.1 = ⟨some (preset.setTuple 0 ⟨address, value⟩), r.transfer.activity⟩ ∧
      Accessed c (.read address value) r out.2 ∧ (out.2.chip c).state = (r.chip c).state := by
  have hd := (ControlByte.direction?_eq_read_iff _).mpr hr
  simp only [feed_packet, answer_of_chip hdev, Request.file_read hd, Response.fill_singleton,
    chip_setChip, transfer_setChip, if_true]
  exact ⟨trivial, accessed_setChip c _ _ r, trivial⟩

/-- A write sets a register, and no other. -/
theorem feed_chip_write (hdev : q.control.device = c.device) (hr : q.control.readBit = false)
    (hw : q.control.writeBit = true) (preset : Response)
    (r : Radio RecordedFile RecordedFile β) :
    let first := q.payload.get 0
    let out := feed (.packet q preset) r
    out.1 = ⟨some (preset.setTuple 0 ⟨first.address, 0⟩), r.transfer.activity⟩ ∧
      Accessed c (.write first.address first.data) r out.2 ∧
      ∀ address, (out.2.chip c).state.get address.toFin =
        if first.address = address then first.data
        else (r.chip c).state.get address.toFin := by
  have hd := (ControlByte.direction?_eq_write_iff _).mpr ⟨hr, hw⟩
  simp only [feed_packet, answer_of_chip hdev, Request.file_write hd, Response.fill_singleton,
    chip_setChip, transfer_setChip, if_true, RegisterFile.get_set, UInt8.toFin_inj]
  exact ⟨trivial, accessed_setChip c _ _ r, fun _ => trivial⟩

/-- A request for a chip reaches neither the board nor what is under way. -/
theorem feed_chip (hdev : q.control.device = c.device) (preset : Response)
    (r : Radio RecordedFile RecordedFile β) :
    let out := feed (.packet q preset) r
    out.2.transfer = r.transfer ∧ out.2.board = r.board := by
  rw [feed_packet, answer_of_chip hdev]
  exact ⟨transfer_setChip r c _, board_setChip r c _⟩

/-- A request that is for the board, for no device or in no direction reaches no chip. -/
theorem chip_feed_other
    (h : q.control.device = .config ∨ q.control.device = .reserved ∨
      q.control.readBit = false ∧ q.control.writeBit = false)
    (preset : Response) (r : Radio RecordedFile RecordedFile β) (c : Chip) :
    (feed (.packet q preset) r).2.chip c = r.chip c := by
  rcases h with hdev | hdev | ⟨hr, hw⟩
  · have hother : (Input.packet q preset).isFor c.device = false := by
      cases c <;> simp [Input.isFor, hdev, Chip.device]
    exact chip_feed hother r
  · rw [feed_packet, answer_of_reserved hdev]
  · have hd : q.control.direction? = none := by
      rw [ControlByte.direction?, hr, hw]
      rfl
    rw [feed_packet, answer_of_undirected hd]

/-- **The chips are memories.** Whatever is under way, in a run of packets and resets,

* a packet for a chip with the read bit, with the write bit or without, makes one access to this
  chip, a read at the address of its first tuple, and the first slot of its response has the byte of
  the latest earlier write to this address, or what was there before the run;
* a packet for a chip with the write bit only makes one access to this chip, a write of its first
  tuple, which sets this register and no other, and the first slot of its response has zero;
* a packet for a chip reaches neither the board nor what is under way;
* a packet for the board, for no device or in no direction reaches no chip. -/
theorem chips_are_memories (earlier later : List Input) (q : Request) (preset : Response)
    (r : Radio RecordedFile RecordedFile (Traced β Board.Call)) :
    let before := (feedAll earlier r).2
    let after := (feedAll (earlier ++ [.packet q preset]) r).2
    let seen := (feedAll (earlier ++ .packet q preset :: later) r).1[earlier.length]?
    let first := q.payload.get 0
    (∀ c : Chip, q.control.device = c.device → q.control.readBit = true →
      let initial := (r.chip c).state.get first.address.toFin
      let value := (latestByte c.device first.address earlier).getD initial
      seen = some ⟨some (preset.setTuple 0 ⟨first.address, value⟩), before.transfer.activity⟩ ∧
        Accessed c (.read first.address value) before after ∧
        (after.chip c).state = (before.chip c).state) ∧
    (∀ c : Chip, q.control.device = c.device →
      q.control.readBit = false → q.control.writeBit = true →
      seen = some ⟨some (preset.setTuple 0 ⟨first.address, 0⟩), before.transfer.activity⟩ ∧
        Accessed c (.write first.address first.data) before after ∧
        ∀ address, (after.chip c).state.get address.toFin =
          if first.address = address then first.data
          else (before.chip c).state.get address.toFin) ∧
    (∀ c : Chip, q.control.device = c.device →
      after.transfer = before.transfer ∧ after.board = before.board) ∧
    (q.control.device = .config ∨ q.control.device = .reserved ∨
        q.control.readBit = false ∧ q.control.writeBit = false →
      ∀ c : Chip, after.chip c = before.chip c) := by
  intro before after seen first
  have hseen : seen = some (feed (.packet q preset) before).1 := getElem?_feedAll earlier later _ r
  have hafter : after = (feed (.packet q preset) before).2 := by
    show (feedAll (earlier ++ [.packet q preset]) r).2 = _
    simp only [feedAll_append_apply, feedAll_cons_apply]
    rfl
  rw [hseen, hafter]
  refine ⟨fun c hdev hr => ?_, fun c hdev hr hw => ?_, fun c hdev => feed_chip hdev preset before,
    fun h c => chip_feed_other h preset before c⟩
  · have hvalue := registers_feedAll c first.address earlier r
    obtain ⟨hout, haccess, hstate⟩ := feed_chip_read hdev hr preset before
    rw [hvalue] at hout haccess
    exact ⟨congrArg some hout, haccess, hstate⟩
  · obtain ⟨hout, haccess, hstate⟩ := feed_chip_write hdev hr hw preset before
    exact ⟨congrArg some hout, haccess, hstate⟩

/-- In the middle of a write of the control register both chips are written at one address, by
requests that count no tuple. A request for the transceiver with both direction bits then shows what
was written there, and its data is not written. -/
theorem both_bits_show_the_latest_write :
    let r : Radio RecordedFile RecordedFile (Traced (MemoryBoard Ticker) Board.Call) :=
      { transfer := ⟨.trust, .writing ⟨.control, 2, 0x2211⟩⟩, transceiver := ⟨.zero, []⟩,
        clock := ⟨.zero, []⟩, board := ⟨.boot ⟨0, 1⟩, []⟩ }
    let written : Request := .pack (.pack .write .transceiver 0) [⟨0x10, 0x77⟩]
    let other : Request := .pack (.pack .write .clockSynth 0) [⟨0x10, 0x99⟩]
    let shown : Request := ⟨⟨0xD5⟩, 0, Payload.zero.overlay [⟨0x10, 0x55⟩, ⟨0x11, 0x66⟩]⟩
    let earlier := [.packet written .zero, .packet other .zero]
    let before := (feedAll earlier r).2
    let after := (feedAll (earlier ++ [.packet shown .zero]) r).2
    (shown.control.readBit = true ∧ shown.control.writeBit = true) ∧
    (feedAll (earlier ++ [.packet shown .zero]) r).1[2]? =
      some ⟨some (Response.zero.setTuple 0 ⟨0x10, 0x77⟩), .writing ⟨.control, 2, 0x2211⟩⟩ ∧
    Accessed .transceiver (.read 0x10 0x77) before after ∧
    Accessed .clock (.write 0x10 0x99) (feedAll [.packet written .zero] r).2 before := by
  intro r written other shown earlier before after
  obtain ⟨hread, -⟩ := chips_are_memories earlier [] shown .zero r
  obtain ⟨-, hwrite, -⟩ := chips_are_memories [.packet written .zero] [] other .zero r
  obtain ⟨hseen, hshown, -⟩ := hread .transceiver (by decide) (by decide)
  obtain ⟨-, hother, -⟩ := hwrite .clock (by decide) (by decide) (by decide)
  have hfirst : shown.payload.get 0 = ⟨0x10, 0x55⟩ := by decide
  have hvalue : (latestByte Chip.transceiver.device 0x10 earlier).getD
      ((r.chip .transceiver).state.get (0x10 : UInt8).toFin) = 0x77 := by decide
  have hactivity : before.transfer.activity = .writing ⟨.control, 2, 0x2211⟩ := by decide
  simp only [hfirst, hvalue] at hseen hshown
  rw [hactivity] at hseen
  exact ⟨⟨by decide, by decide⟩, hseen, hshown, hother⟩

end Packets

end Radio

end RadioControl
