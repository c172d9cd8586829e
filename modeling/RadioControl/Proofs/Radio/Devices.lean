import Mathlib
import RadioControl.Proofs.Radio.Separation

/-!
# What each device sees of a run

A run of a radio is a list of packets and resets. Each device has its own inputs, a part of the
radio, and what can be seen of its inputs. `Confined` says that these belong together: no other
input touches the part, and the inputs of the device depend on nothing else. It is shown once for
each device (`confined_transceiver`, `confined_clock`, `confined_board`), a step at a time, and
`Confined.traffic_eq` makes of it a fact about runs of any length.

`devices_separate`: what a device sees of a run is what it sees of its own inputs alone.
-/

namespace RadioControl

namespace ControlByte

theorem direction?_eq_read_iff (c : ControlByte) :
    c.direction? = some .read ↔ c.readBit = true := by
  unfold direction?
  cases c.readBit <;> cases c.writeBit <;> decide

/-- Only the write bit by itself asks for a write. -/
theorem direction?_eq_write_iff (c : ControlByte) :
    c.direction? = some .write ↔ c.readBit = false ∧ c.writeBit = true := by
  unfold direction?
  cases c.readBit <;> cases c.writeBit <;> decide

end ControlByte

/-- The replies of a chip to a request: one access, if the request has a direction. -/
def Request.access {ρ : Type} [RegisterBank ρ] (q : Request) : StateM ρ (List Tuple) :=
  match q.control.direction? with
  | none => pure []
  | some direction => do
    let reply ← RegisterBank.serve direction (q.payload.get 0)
    return [reply]

section Access

variable {ρ : Type} [RegisterBank ρ] {q : Request}

theorem Request.access_of_undirected (h : q.control.direction? = none) (s : ρ) :
    q.access s = ([], s) := by
  unfold access
  rw [h]
  rfl

theorem Request.access_of_read (h : q.control.direction? = some .read) (s : ρ) :
    q.access s =
      let address := (q.payload.get 0).address
      let out := RegisterBank.read address s
      ([⟨address, out.1⟩], out.2) := by
  unfold access
  rw [h]
  rfl

theorem Request.access_of_write (h : q.control.direction? = some .write) (s : ρ) :
    q.access s =
      let first := q.payload.get 0
      ([⟨first.address, 0⟩], (RegisterBank.write first.address first.data s).2) := by
  unfold access
  rw [h]
  rfl

end Access

namespace Radio

/-! ## Runs -/

/-- What reaches a radio from outside. -/
inductive Input where
  /-- A request, and what its response is filled into. -/
  | packet (request : Request) (preset : Response)
  | reset

namespace Input

/-- The input is a request for the device. -/
def isFor (device : Device) : Input → Bool
  | .packet q _ => q.control.device = device
  | .reset => false

/-- The input reaches the transfer engine: it is a reset, or a request for the board with a
direction. -/
def isTransfer : Input → Bool
  | .packet q _ => q.isMove
  | .reset => true

/-- The byte that an input writes to a register of a device: the request is for the device, has the
write bit and not the read bit, and its first tuple names the register. -/
def written? (device : Device) (address : UInt8) : Input → Option UInt8
  | .packet q _ =>
    let first := q.payload.get 0
    if q.control.device = device ∧ q.control.readBit = false ∧ q.control.writeBit = true ∧
        first.address = address then
      some first.data
    else none
  | .reset => none

end Input

/-- What can be seen of an input: the response, if it is a packet, and what the transfer engine is
in the middle of afterwards. -/
structure Seen where
  response? : Option Response
  activity : Activity

/-- What is seen of some of the inputs of a run. -/
def pick (keep : Input → Bool) (is : List Input) (seen : List Seen) : List Seen :=
  ((is.zip seen).filter fun x => keep x.1).map Prod.snd

theorem pick_cons (keep : Input → Bool) (i : Input) (is : List Input) (a : Seen)
    (seen : List Seen) :
    pick keep (i :: is) (a :: seen) = if keep i then a :: pick keep is seen
      else pick keep is seen := by
  unfold pick
  rw [List.zip_cons_cons, List.filter_cons]
  split <;> rfl

section Runs

variable {τ κ β : Type} [RegisterBank τ] [RegisterBank κ] [Board β]

/-- An input, and what is seen of it. -/
def feed : Input → StateM (Radio τ κ β) Seen
  | .packet q preset => fun r =>
    match answer q preset r with
    | (response, r') => (⟨some response, r'.transfer.activity⟩, r')
  | .reset => fun r => (⟨none, r.reset.transfer.activity⟩, r.reset)

theorem feed_packet (q : Request) (preset : Response) (r : Radio τ κ β) :
    feed (.packet q preset) r =
      let a := answer q preset r
      (⟨some a.1, a.2.transfer.activity⟩, a.2) := rfl

/-- The inputs of a run, and what is seen of each. -/
def feedAll (is : List Input) : StateM (Radio τ κ β) (List Seen) := is.mapM feed

theorem feedAll_cons_apply (i : Input) (is : List Input) (r : Radio τ κ β) :
    feedAll (i :: is) r =
      let a := feed i r
      let rest := feedAll is a.2
      (a.1 :: rest.1, rest.2) :=
  mapM_cons_apply feed i is r

theorem feedAll_append_apply (is js : List Input) (r : Radio τ κ β) :
    feedAll (is ++ js) r =
      let before := feedAll is r
      let after := feedAll js before.2
      (before.1 ++ after.1, after.2) :=
  mapM_append_apply feed is js r

/-- What is seen of an input in the middle of a run is what is seen of it after the earlier ones. -/
theorem getElem?_feedAll (earlier later : List Input) (i : Input) (r : Radio τ κ β) :
    (feedAll (earlier ++ i :: later) r).1[earlier.length]? =
      some (feed i (feedAll earlier r).2).1 :=
  getElem?_mapM_apply feed earlier later i r

end Runs

/-! ## One packet -/

section Packets

variable {τ κ β : Type} [RegisterBank τ] [RegisterBank κ] [Board β] {q : Request}

/-- Without a direction nothing happens. -/
theorem answer_of_undirected (h : q.control.direction? = none) (preset : Response)
    (r : Radio τ κ β) : answer q preset r = (preset, r) := by
  unfold answer handle
  rw [bind_apply, h]
  simp only [pure_apply, Response.fill, Payload.overlay_nil]

/-- Without a device nothing happens. -/
theorem answer_of_reserved (h : q.control.device = .reserved) (preset : Response)
    (r : Radio τ κ β) : answer q preset r = (preset, r) := by
  cases hd : q.control.direction? with
  | none => exact answer_of_undirected hd preset r
  | some d =>
    unfold answer handle
    rw [bind_apply, hd, h]
    simp only [pure_apply, Response.fill, Payload.overlay_nil]

theorem answer_of_transceiver (h : q.control.device = .transceiver) (preset : Response)
    (r : Radio τ κ β) : answer q preset r =
      let a := q.access r.transceiver
      (preset.fill a.1, { r with transceiver := a.2 }) := by
  unfold answer handle Request.access
  rw [bind_apply, h]
  cases q.control.direction? <;> rfl

theorem answer_of_clock (h : q.control.device = .clockSynth) (preset : Response)
    (r : Radio τ κ β) : answer q preset r =
      let a := q.access r.clock
      (preset.fill a.1, { r with clock := a.2 }) := by
  unfold answer handle Request.access
  rw [bind_apply, h]
  cases q.control.direction? <;> rfl

/-- A request for the board with a direction is a run of the transfer engine. -/
theorem answer_of_move {d : Direction} (h : q.control.device = .config)
    (hd : q.control.direction? = some d) (preset : Response) (r : Radio τ κ β) :
    answer q preset r =
      let f := r.transfer.run d (q.tuples q.control.count) r.board
      (preset.fill f.1.1, { r with transfer := f.1.2, board := f.2 }) := by
  have hi : q.input? = some (Transfer.Input.frame (β := β) d (q.tuples q.control.count)) := by
    rw [Request.input?, if_pos h, hd]
    rfl
  exact answer_move hi preset r

/-- A request for the board leaves the chips alone. -/
theorem answer_of_config (h : q.control.device = .config) (preset : Response)
    (r : Radio τ κ β) : (answer q preset r).2.transceiver = r.transceiver ∧
      (answer q preset r).2.clock = r.clock := by
  cases hd : q.control.direction? with
  | none =>
    rw [answer_of_undirected hd]
    exact ⟨rfl, rfl⟩
  | some d =>
    rw [answer_of_move h hd]
    exact ⟨rfl, rfl⟩

end Packets

/-! ## Devices -/

section Confined

variable {τ κ β π ω : Type} [RegisterBank τ] [RegisterBank κ] [Board β]
  {keep : Input → Bool} {view : Seen → ω} {part : Radio τ κ β → π}

/-- What can be seen of the inputs `keep` in a run, and the part of the radio after it. -/
def traffic (keep : Input → Bool) (view : Seen → ω) (part : Radio τ κ β → π) (is : List Input)
    (r : Radio τ κ β) : List ω × π :=
  let run := feedAll is r
  ((pick keep is run.1).map view, part run.2)

/-- The part of the radio belongs to the inputs `keep`: no other input touches it, and what they do
to it and what is seen of them depend on nothing else. -/
structure Confined (keep : Input → Bool) (view : Seen → ω) (part : Radio τ κ β → π) : Prop where
  untouched : ∀ {i} (r : Radio τ κ β), keep i = false → part (feed i r).2 = part r
  closed : ∀ {i} {r r' : Radio τ κ β}, keep i = true → part r = part r' →
    view (feed i r).1 = view (feed i r').1 ∧ part (feed i r).2 = part (feed i r').2

/-- **A run of a part.** The inputs of a part can do without the others, and without the rest of the
radio. -/
theorem Confined.traffic_eq (h : Confined keep view part) (is : List Input) {r r' : Radio τ κ β}
    (hr : part r = part r') : traffic keep view part is r =
      let alone := feedAll (is.filter keep) r'
      (alone.1.map view, part alone.2) := by
  -- The two runs are at different radios, which agree on the part after every input.
  induction is generalizing r r' with
  | nil => exact congrArg (Prod.mk []) hr
  | cons i is ih =>
    have hcons : traffic keep view part (i :: is) r =
        let rest := traffic keep view part is (feed i r).2
        (if keep i then view (feed i r).1 :: rest.1 else rest.1, rest.2) := by
      simp only [traffic, feedAll_cons_apply, pick_cons]
      split <;> rfl
    rw [hcons, List.filter_cons]
    by_cases hk : keep i
    · obtain ⟨hview, hpart⟩ := h.closed hk hr
      simp only [if_pos hk, feedAll_cons_apply, ih hpart, hview, List.map_cons]
    · have hpart := (h.untouched r (Bool.eq_false_iff.mpr hk)).trans hr
      simp only [if_neg hk, ih hpart]

/-- Two runs with the same inputs of a part are the same to it. -/
theorem Confined.traffic_congr (h : Confined keep view part) {is js : List Input}
    (hs : is.filter keep = js.filter keep) {r r' : Radio τ κ β} (hr : part r = part r') :
    traffic keep view part is r = traffic keep view part js r' := by
  rw [h.traffic_eq is hr, h.traffic_eq js rfl, hs]

theorem confined_transceiver : Confined (τ := τ) (κ := κ) (β := β) (Input.isFor .transceiver)
    Seen.response? Radio.transceiver where
  untouched {i} r hi := by
    cases i with
    | reset => rfl
    | packet q preset =>
      show (answer q preset r).2.transceiver = r.transceiver
      cases hd : q.control.device with
      | config => exact (answer_of_config hd preset r).1
      | transceiver => exact absurd (decide_eq_false_iff_not.mp hi) (not_not_intro hd)
      | reserved => rw [answer_of_reserved hd]
      | clockSynth => rw [answer_of_clock hd]
  closed {i r r'} hi hr := by
    cases i with
    | reset => cases hi
    | packet q preset =>
      have hd : q.control.device = .transceiver := decide_eq_true_iff.mp hi
      simp only [feed_packet, answer_of_transceiver hd, hr, and_self]

theorem confined_clock : Confined (τ := τ) (κ := κ) (β := β) (Input.isFor .clockSynth)
    Seen.response? Radio.clock where
  untouched {i} r hi := by
    cases i with
    | reset => rfl
    | packet q preset =>
      show (answer q preset r).2.clock = r.clock
      cases hd : q.control.device with
      | config => exact (answer_of_config hd preset r).2
      | transceiver => rw [answer_of_transceiver hd]
      | reserved => rw [answer_of_reserved hd]
      | clockSynth => exact absurd (decide_eq_false_iff_not.mp hi) (not_not_intro hd)
  closed {i r r'} hi hr := by
    cases i with
    | reset => cases hi
    | packet q preset =>
      have hd : q.control.device = .clockSynth := decide_eq_true_iff.mp hi
      simp only [feed_packet, answer_of_clock hd, hr, and_self]

/-- The board belongs to the moves and resets together with the transfer engine. -/
theorem confined_board : Confined (τ := τ) (κ := κ) (β := β) Input.isTransfer id
    (fun r => (r.transfer, r.board)) where
  untouched {i} r hi := by
    cases i with
    | reset => cases hi
    | packet q preset =>
      have hq : (q.input? : Option (Transfer.Input β)) = none := by
        rw [← Option.not_isSome_iff_eq_none, Request.isSome_input?]
        exact Bool.eq_false_iff.mp hi
      obtain ⟨ht, hb⟩ := answer_other hq preset r
      exact Prod.ext ht hb
  closed {i r r'} hi hr := by
    have ht : r.transfer = r'.transfer := congrArg Prod.fst hr
    have hb : r.board = r'.board := congrArg Prod.snd hr
    cases i with
    | reset => exact ⟨rfl, Prod.ext (congrArg Transfer.reset ht) hb⟩
    | packet q preset =>
      obtain ⟨j, hj⟩ := Option.isSome_iff_exists.mp
        ((Request.isSome_input? (β := β) q).trans hi)
      simp only [feed_packet, answer_move hj, ht, hb, and_self]

end Confined

/-! ## Separation -/

section Separation

variable {τ κ β : Type} [RegisterBank τ] [RegisterBank κ] [Board β]

/-- The responses to the requests for the transceiver, and the transceiver after the run. -/
def transceiverTraffic : List Input → Radio τ κ β → List (Option Response) × τ :=
  traffic (Input.isFor .transceiver) Seen.response? Radio.transceiver

/-- The responses to the requests for the clock generator, and the clock generator after the run. -/
def clockTraffic : List Input → Radio τ κ β → List (Option Response) × κ :=
  traffic (Input.isFor .clockSynth) Seen.response? Radio.clock

/-- The responses to the moves, with what is under way after each of them and after each reset, and
the transfer engine and the board after the run. -/
def boardTraffic : List Input → Radio τ κ β → List Seen × (Transfer × β) :=
  traffic Input.isTransfer id fun r => (r.transfer, r.board)

/-- **The devices do not meet.** In any run of a radio with a recorded board,

* what the transceiver sees is what it sees of the requests for it alone, and so for the clock
  generator, and for the board, with its calls, the moves and the resets;
* a request with no direction or no device changes nothing, and its response is the preset one;
* another run, of a radio that may differ in everything else, is the same to a device if it has the
  same inputs for it. -/
theorem devices_separate (is : List Input) (r : Radio τ κ (Traced β Board.Call)) :
    let toTransceiver := feedAll (is.filter (Input.isFor .transceiver)) r
    let toClock := feedAll (is.filter (Input.isFor .clockSynth)) r
    let toBoard := feedAll (is.filter Input.isTransfer) r
    transceiverTraffic is r = (toTransceiver.1.map Seen.response?, toTransceiver.2.transceiver) ∧
    clockTraffic is r = (toClock.1.map Seen.response?, toClock.2.clock) ∧
    boardTraffic is r = (toBoard.1, (toBoard.2.transfer, toBoard.2.board)) ∧
    (∀ q preset, q.control.direction? = none ∨ q.control.device = .reserved →
      ∀ r' : Radio τ κ (Traced β Board.Call),
        feed (.packet q preset) r' = (⟨some preset, r'.transfer.activity⟩, r')) ∧
    (∀ (js : List Input) (r' : Radio τ κ (Traced β Board.Call)),
      (r.transceiver = r'.transceiver →
        is.filter (Input.isFor .transceiver) = js.filter (Input.isFor .transceiver) →
        transceiverTraffic is r = transceiverTraffic js r') ∧
      (r.clock = r'.clock →
        is.filter (Input.isFor .clockSynth) = js.filter (Input.isFor .clockSynth) →
        clockTraffic is r = clockTraffic js r') ∧
      (r.transfer = r'.transfer ∧ r.board = r'.board →
        is.filter Input.isTransfer = js.filter Input.isTransfer →
        boardTraffic is r = boardTraffic js r')) := by
  intro toTransceiver toClock toBoard
  refine ⟨confined_transceiver.traffic_eq is rfl, confined_clock.traffic_eq is rfl, ?_, ?_, ?_⟩
  · have h : boardTraffic is r = (toBoard.1.map id, (toBoard.2.transfer, toBoard.2.board)) :=
      confined_board.traffic_eq is rfl
    rwa [List.map_id] at h
  · rintro q preset hq r'
    have ha : answer q preset r' = (preset, r') :=
      hq.elim (answer_of_undirected · preset r') (answer_of_reserved · preset r')
    rw [feed_packet, ha]
  · intro js r'
    exact ⟨fun hr hs => confined_transceiver.traffic_congr hs hr,
      fun hr hs => confined_clock.traffic_congr hs hr,
      fun hr hs => confined_board.traffic_congr hs (Prod.ext hr.1 hr.2)⟩

end Separation

end Radio

end RadioControl
