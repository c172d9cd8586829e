import Mathlib
import RadioControl.Board.Memory
import RadioControl.I2c.Chip
import RadioControl.Proofs.Frame.Response
import RadioControl.Proofs.Station.Delivery
import RadioControl.Proofs.Transfer.Span
import RadioControl.Spi.Chip

/-!
# The station on its line

The line brings chunks of bytes, and now and then it fails (`Input`). `listen` is what the station
makes of it: the frames that go out for each input, and the station after it.

* `listen_chunks`: what comes of chunks is what comes of their bytes in one piece.
* `hear_failure`: a failure leaves a new station on the same devices.

`loop_resynchronises` puts them together.
-/

namespace RadioControl

namespace Radio

variable {τ κ β : Type} [RegisterBank τ] [RegisterBank κ] [Board β]

/-- No request changes the policy. -/
theorem answerAll_policy (qs : List Request) (r : Radio τ κ β) :
    (answerAll qs r).2.transfer.policy = r.transfer.policy := by
  rw [(answerAll_separates qs r).2.2.1, Transfer.feedAll_apply]
  exact Transfer.recordAll_policy _ _ _

end Radio

namespace Station

/-- What the line brings. -/
inductive Input (β : Type) where
  | chunk (bytes : List UInt8)
  /-- The line fails, and no byte can be told from another. -/
  | failure
  /-- The board changes by itself. -/
  | drift (change : β → β)

/-- A station that has just been set up, on the devices of another. -/
def anew {τ κ β : Type} (policy : Policy) (s : Station τ κ β) : Station τ κ β where
  radio := { s.radio with transfer := .fresh policy }

section Loop

variable {τ κ β : Type} [RegisterBank τ] [RegisterBank κ] [Board β]

/-- The frames that go out for an input. -/
def hear : Input β → StateM (Station τ κ β) (List Frame)
  | .chunk bytes => do
    let responses ← receiveAll bytes
    return responses.map Response.toFrame
  | .failure => do
    modify resync
    return []
  | .drift change => do
    onRadio (Radio.onBoard (modify change))
    return []

/-- The frames that go out for each input. -/
def listen (is : List (Input β)) : StateM (Station τ κ β) (List (List Frame)) := is.mapM hear

theorem hear_chunk (bs : List UInt8) (s : Station τ κ β) :
    hear (.chunk bs) s =
      let a := receiveAll bs s
      (a.1.map Response.toFrame, a.2) := rfl

theorem listen_cons_apply (i : Input β) (is : List (Input β)) (s : Station τ κ β) :
    listen (i :: is) s =
      let a := hear i s
      let rest := listen is a.2
      (a.1 :: rest.1, rest.2) :=
  mapM_cons_apply hear i is s

theorem listen_append_apply (is js : List (Input β)) (s : Station τ κ β) :
    listen (is ++ js) s =
      let before := listen is s
      let after := listen js before.2
      (before.1 ++ after.1, after.2) :=
  mapM_append_apply hear is js s

/-- Chunks are as good as their bytes in one piece. -/
theorem listen_chunks (chunks : List (List UInt8)) (s : Station τ κ β) :
    let out := listen (chunks.map Input.chunk) s
    (out.1.flatten, out.2) = hear (.chunk chunks.flatten) s := by
  induction chunks generalizing s with
  | nil => rfl
  | cons bs chunks ih =>
    have ih := ih (receiveAll bs s).2
    simp only [hear_chunk] at ih
    simp only [List.map_cons, listen_cons_apply, hear_chunk, List.flatten_cons, receiveAll_append,
      bind_apply, pure_apply, List.map_append]
    exact congrArg (fun x => ((receiveAll bs s).1.map Response.toFrame ++ x.1, x.2)) ih

theorem hear_policy (i : Input β) (s : Station τ κ β) :
    (hear i s).2.radio.transfer.policy = s.radio.transfer.policy := by
  cases i with
  | chunk bs =>
    rw [hear_chunk, receiveAll_apply]
    exact Radio.answerAll_policy _ s.radio
  | failure => rfl
  | drift change => rfl

theorem listen_policy (is : List (Input β)) (s : Station τ κ β) :
    (listen is s).2.radio.transfer.policy = s.radio.transfer.policy := by
  induction is generalizing s with
  | nil => rfl
  | cons i is ih =>
    rw [listen_cons_apply]
    exact (ih (hear i s).2).trans (hear_policy i s)

/-- After a failure nothing is left of what came before it but the devices. -/
theorem hear_failure (s : Station τ κ β) :
    hear .failure s = ([], s.anew s.radio.transfer.policy) := rfl

/-- A byte stream, answered: `requests` are its blocks of sixteen bytes, the frames that go out have
the bytes of the responses of the radio to them, each on a blank frame, and the bytes that are left
over are pending. -/
structure Answers (bytes : List UInt8) (requests : List Request) (r : Radio τ κ β)
    (out : List Frame × Station τ κ β) : Prop where
  count : requests.length = bytes.length / 16
  blocks : ∀ i q, requests[i]? = some q → q.bytes = (bytes.drop (16 * i)).take 16
  frames : out.1.map Vector.toList = (Radio.answerAll requests r).1.map Response.bytes
  each : out.1.length = requests.length
  radio : out.2.radio = (Radio.answerAll requests r).2
  rest : out.2.framer.pending = bytes.drop (16 * (bytes.length / 16))

theorem hear_blocks (bs : List UInt8) (s : Station τ κ β) :
    ∃ requests, Answers (s.framer.pending ++ bs) requests s.radio (hear (.chunk bs) s) := by
  obtain ⟨hlen, hblocks, hpending⟩ := s.framer.feed_blocks bs
  rw [hear_chunk, receiveAll_apply]
  refine ⟨(s.framer.feed bs).1.map Request.ofFrame, ?_, fun i q hq => ?_,
    Response.map_toList_toFrame _, ?_, rfl, hpending⟩
  · rw [List.length_map, hlen]
  · rw [List.getElem?_map] at hq
    obtain ⟨f, hf, rfl⟩ := Option.map_eq_some_iff.mp hq
    rw [← Request.toList_toFrame, Request.toFrame_ofFrame]
    exact hblocks i f hf
  · rw [List.length_map]
    exact (Radio.answerAll_separates _ s.radio).1

end Loop

section Traced

variable {σ ι β : Type} [Spi.Bus σ] [I2c.Bus ι] [Board β]

/-- **The station on its line.** Whatever is pending and whatever is under way, on devices that
record how they are used,

* the chunks of a byte stream bring out one frame for each of its blocks of sixteen bytes, counted
  from the pending ones, and no other (`Answers`);
* how the bytes are cut into chunks makes no difference to the frames that go out, to what is
  pending or under way, or to any device or to how it is used;
* after a failure nothing is pending and nothing under way, and from then on, whatever comes, the
  station is as a new one with the same policy on the same devices. -/
theorem loop_resynchronises
    (s : Station (Transceiver (Traced σ Spi.Event)) (ClockSynth (Traced ι I2c.Transaction))
      (Traced β Board.Call)) :
    (∀ chunks : List (List UInt8),
      let out := listen (chunks.map Input.chunk) s
      ∃ requests, Answers (s.framer.pending ++ chunks.flatten) requests s.radio
        (out.1.flatten, out.2)) ∧
    (∀ chunks chunks' : List (List UInt8), chunks.flatten = chunks'.flatten →
      let out := listen (chunks.map Input.chunk) s
      let out' := listen (chunks'.map Input.chunk) s
      out.1.flatten = out'.1.flatten ∧ out.2 = out'.2) ∧
    (∀ earlier later : List (Input (Traced β Board.Call)),
      let before := listen earlier s
      let failed := listen (earlier ++ [.failure]) s
      let after := listen later (before.2.anew s.radio.transfer.policy)
      failed.2.pending = 0 ∧ failed.2.radio.transfer.activity = .idle ∧
        listen (earlier ++ .failure :: later) s = (before.1 ++ [] :: after.1, after.2)) := by
  refine ⟨fun chunks => ?_, fun chunks chunks' hc => ?_, fun earlier later => ?_⟩
  · intro out
    have h : (out.1.flatten, out.2) = hear (.chunk chunks.flatten) s := listen_chunks chunks s
    rw [h]
    exact hear_blocks chunks.flatten s
  · have h := (listen_chunks chunks s).trans (hc ▸ (listen_chunks chunks' s).symm)
    exact Prod.ext_iff.mp h
  · have hp := listen_policy earlier s
    simp only [listen_append_apply, listen_cons_apply, hear_failure, hp]
    exact ⟨rfl, rfl, trivial⟩

/-- A read of the control register comes in two chunks, the second with the first bytes of a write;
then the line fails, and a read of the transceiver follows. Both reads are answered. -/
theorem answers_around_a_failure :
    let chip : Spi.Chip := { registers := RegisterFile.zero.set 0x10 0x55 }
    let s : Station (Transceiver (Traced Spi.Chip Spi.Event))
        (ClockSynth (Traced I2c.Chip I2c.Transaction)) (Traced (MemoryBoard Ticker) Board.Call) :=
      { radio := { transceiver := ⟨{ state := chip }⟩,
                   clock := .factory { state := { address := 0x70 } },
                   board := { state := { MemoryBoard.boot ⟨0, 1⟩ with control := 0x44332211 } } } }
    let earlier : List (Input (Traced (MemoryBoard Ticker) Board.Call)) :=
      [.chunk [0x84, 0, 0], .chunk [0, 1, 0, 2, 0, 3, 0, 0, 0, 0, 0, 0, 0, 0x42, 0, 0]]
    let later : List (Input (Traced (MemoryBoard Ticker) Board.Call)) :=
      [.chunk [0x91, 0, 0x10, 0, 0, 0, 0, 0, 0, 0, 0, 0, 0, 0, 0, 0]]
    ((listen earlier s).2.pending = 3 ∧ (listen (earlier ++ [.failure]) s).2.pending = 0) ∧
    (listen (earlier ++ .failure :: later) s).2 =
      (listen later ((listen earlier s).2.anew .trust)).2 ∧
    (listen (earlier ++ .failure :: later) s).1.map (List.map Vector.toList) =
      [[], [[0, 0, 0, 0x11, 1, 0x22, 2, 0x33, 3, 0x44, 0, 0, 0, 0, 0, 0]], [],
        [[0, 0, 0x10, 0x55, 0, 0, 0, 0, 0, 0, 0, 0, 0, 0, 0, 0]]] := by
  intro chip s earlier later
  have hpolicy : s.radio.transfer.policy = .trust := rfl
  obtain ⟨-, -, hfailure⟩ := loop_resynchronises s
  obtain ⟨hpending, -, hout⟩ := hfailure earlier later
  rw [hpolicy] at hout
  simp only [hout, hpending]
  decide +kernel

end Traced

end Station

end RadioControl
