import Mathlib
import RadioControl.Frame.Framer
import RadioControl.Proofs.Stateful

/-!
# Runs of a framer

A framer takes single bytes and whole chunks, or as much of a chunk as the next frames need, and is
cleared now and then (`Op`). `act` carries out an operation and notes the bytes that it reads, gives
up in frames and drops (`Step`).

* `feed_blocks`: the frames of a byte stream are its blocks of sixteen bytes.
* `pull_eq`: to ask for some frames of a chunk is to feed as many of its bytes as they need.
* `feed_sinceClear`: the invariant of a run. What was done since the last clear is a feed of the
  bytes that were read since then.
* `acceptAll_buffer`: a framer is a buffer with room for one frame (`Buffer`), which never has to
  refuse a byte.

`framer_cuts_exactly` puts them together.
-/

namespace RadioControl

namespace Framer

/-! ## Frames of a byte stream -/

/-- The bytes of a frame give this frame. -/
theorem feed_toList (f : Frame) : empty.feed f.toList = ([f], empty) := by
  rcases hfeed : empty.feed f.toList with ⟨fs, s⟩
  have hb := flatten_feed empty f.toList
  rw [hfeed] at hb
  have hlen := congrArg List.length hb
  -- Sixteen bytes are one frame and nothing else.
  match fs with
  | [] =>
    have hs : s.pending.length = Frame.size := by simpa [empty] using hlen
    exact absurd hs (Nat.ne_of_lt s.short)
  | [g] =>
    have hs : s.pending = [] := by simpa [empty] using hlen
    have hg : g.toList = f.toList := by simpa [empty, hs] using hb
    rw [Vector.toList_inj.mp hg, ext (t := empty) hs]
  | g :: g' :: gs => simp [empty] at hlen

theorem feed_frames (fs : List Frame) : empty.feed (fs.flatMap Vector.toList) = (fs, empty) := by
  induction fs with
  | nil => rfl
  | cons f fs ih => rw [List.flatMap_cons, feed_append, feed_toList, ih, List.singleton_append]

theorem length_flatten_frames (fs : List Frame) :
    (fs.map Vector.toList).flatten.length = 16 * fs.length := by
  induction fs with
  | nil => rfl
  | cons f fs ih =>
    rw [List.map_cons, List.flatten_cons, List.length_append, f.length_toList, ih,
      List.length_cons]
    omega

/-- A frame among others has the sixteen bytes at its place. -/
theorem take_drop_frames {fs : List Frame} {i : Nat} {f : Frame} (h : fs[i]? = some f)
    (rest : List UInt8) :
    (((fs.map Vector.toList).flatten ++ rest).drop (16 * i)).take 16 = f.toList := by
  induction fs generalizing i with
  | nil => cases h
  | cons g fs ih =>
    rw [List.map_cons, List.flatten_cons, List.append_assoc]
    cases i with
    | zero =>
      obtain rfl : g = f := by simpa using h
      rw [Nat.mul_zero, List.drop_zero, List.take_left' g.length_toList]
    | succ i =>
      rw [Nat.mul_succ, Nat.add_comm, ← List.drop_drop, List.drop_left' g.length_toList]
      exact ih h

/-- **The frames of a byte stream.** They are its blocks of sixteen bytes, as many as are whole, and
what is pending is the rest. -/
theorem feed_blocks (s : Framer) (bs : List UInt8) :
    let bytes := s.pending ++ bs
    let out := s.feed bs
    out.1.length = bytes.length / 16 ∧
    (∀ i f, out.1[i]? = some f → f.toList = (bytes.drop (16 * i)).take 16) ∧
    out.2.pending = bytes.drop (16 * (bytes.length / 16)) := by
  intro bytes out
  have hb : (out.1.map Vector.toList).flatten ++ out.2.pending = bytes := flatten_feed s bs
  have hframes := length_flatten_frames out.1
  have hlen : out.1.length = bytes.length / 16 := by
    have hshort := out.2.length_pending_lt
    rw [← hb, List.length_append, hframes]
    omega
  refine ⟨hlen, fun i f hf => ?_, ?_⟩
  · rw [← hb, take_drop_frames hf]
  · rw [← hlen, ← hb, List.drop_left' hframes]

theorem length_feed (s : Framer) (bs : List UInt8) :
    (s.feed bs).1.length = (s.pending.length + bs.length) / 16 := by
  rw [(s.feed_blocks bs).1, List.length_append]

theorem feed_singleton (s : Framer) (b : UInt8) :
    s.feed [b] = ((s.push b).1.toList, (s.push b).2) := by
  rw [feed]
  rcases s.push b with ⟨_ | f, t⟩ <;> rfl

/-- To ask for some frames of a chunk is to feed as many of its bytes as they need. -/
theorem pull_eq (s : Framer) (n : Nat) (bs : List UInt8) :
    let need := 16 * n - s.pending.length
    let out := s.feed (bs.take need)
    s.pull n bs = (out.1, out.2, bs.drop need) := by
  induction bs generalizing s n with
  | nil => cases n <;> simp [pull, feed]
  | cons b bs ih =>
    cases n with
    | zero => simp [pull, feed]
    | succ n =>
      have hshort := s.length_pending_lt
      by_cases h : s.pending.length + 1 < 16
      · have hneed : 16 * (n + 1) - s.pending.length =
            16 * (n + 1) - (s.hold b h).pending.length + 1 := by
          simp only [hold, List.length_append, List.length_singleton]
          omega
        simp only [pull, push_of_lt h, ih, hneed, List.take_succ_cons, List.drop_succ_cons, feed]
      · -- The byte completes the first of the frames, and the others begin anew.
        obtain ⟨f, -, hf⟩ := push_of_le (b := b) (Nat.not_lt.mp h)
        have hneed : 16 * (n + 1) - s.pending.length = 16 * n - empty.pending.length + 1 := by
          simp only [empty, List.length_nil]
          omega
        simp only [pull, hf, ih, hneed, List.take_succ_cons, List.drop_succ_cons, feed]

/-! ## Operations -/

/-- What can be done to a framer. -/
inductive Op where
  | push (b : UInt8)
  | feed (chunk : List UInt8)
  /-- Ask for the next `n` frames of a chunk, and leave the rest of it. -/
  | pull (n : Nat) (chunk : List UInt8)
  | clear
  deriving DecidableEq, Repr

namespace Op

def isClear : Op → Bool
  | .clear => true
  | _ => false

/-- The operation takes all the bytes that it is offered. -/
def isWhole : Op → Bool
  | .push _ | .feed _ => true
  | .pull _ _ | .clear => false

/-- The bytes that the operation is offered. -/
def offered : Op → List UInt8
  | .push b => [b]
  | .feed chunk | .pull _ chunk => chunk
  | .clear => []

end Op

/-- An operation that has been carried out. -/
structure Step where
  op : Op
  /-- The frames that it gave up. -/
  frames : List Frame
  /-- The bytes that it read. -/
  read : List UInt8
  /-- The pending bytes that it dropped. -/
  dropped : List UInt8 := []

/-- All bytes that a step let go of. -/
def Step.released (x : Step) : List UInt8 := x.frames.flatMap Vector.toList ++ x.dropped

/-- Carry out an operation. -/
def act (op : Op) : StateM Framer Step := fun s =>
  match op with
  | .push b => (⟨op, (s.push b).1.toList, [b], []⟩, (s.push b).2)
  | .feed chunk => (⟨op, (s.feed chunk).1, chunk, []⟩, (s.feed chunk).2)
  | .pull n chunk =>
    match s.pull n chunk with
    | (frames, s', unread) =>
      (⟨op, frames, chunk.take (chunk.length - unread.length), []⟩, s')
  | .clear => (⟨op, [], [], s.pending⟩, .empty)

/-- Carry out the operations of a run. -/
def actAll (ops : List Op) : StateM Framer (List Step) := ops.mapM act

/-- The steps since the last clear, or since the start. -/
def sinceClear (steps : List Step) : List Step := steps.rtakeWhile fun x => !x.op.isClear

theorem actAll_cons_apply (op : Op) (ops : List Op) (s : Framer) :
    actAll (op :: ops) s =
      let x := act op s
      let rest := actAll ops x.2
      (x.1 :: rest.1, rest.2) :=
  mapM_cons_apply act op ops s

theorem actAll_concat_apply (ops : List Op) (op : Op) (s : Framer) :
    actAll (ops ++ [op]) s =
      let before := actAll ops s
      let x := act op before.2
      (before.1 ++ [x.1], x.2) :=
  mapM_append_apply act ops [op] s

theorem act_op (op : Op) (s : Framer) : (act op s).1.op = op := by
  cases op <;> rfl

theorem act_pull (n : Nat) (chunk : List UInt8) (s : Framer) :
    act (.pull n chunk) s =
      let read := chunk.take (16 * n - s.pending.length)
      (⟨.pull n chunk, (s.feed read).1, read, []⟩, (s.feed read).2) := by
  have hread : ∀ need, chunk.take (chunk.length - (chunk.drop need).length) = chunk.take need := by
    intro need
    rw [List.length_drop, List.take_eq_take_iff]
    omega
  simp only [act, pull_eq, hread]

/-- **One operation.** Unless it is a clear, it feeds the bytes that it reads. -/
theorem feed_read {op : Op} (h : op.isClear = false) (s : Framer) :
    let x := act op s
    s.feed x.1.read = (x.1.frames, x.2) ∧ x.1.dropped = [] := by
  cases op with
  | push b => exact ⟨feed_singleton s b, rfl⟩
  | feed chunk => exact ⟨rfl, rfl⟩
  | pull n chunk =>
    rw [act_pull]
    exact ⟨rfl, rfl⟩
  | clear => cases h

/-! ## Runs -/

/-- **The invariant of a run.** A framer is where a feed of the bytes that were read since the last
clear brings an empty one, and has given up the same frames since then. -/
theorem feed_sinceClear (ops : List Op) :
    let run := actAll ops empty
    let recent := sinceClear run.1
    empty.feed (recent.flatMap Step.read) = (recent.flatMap Step.frames, run.2) := by
  induction ops using List.reverseRecOn with
  | nil => rfl
  | append_singleton ops op ih =>
    simp only [actAll_concat_apply, sinceClear, List.rtakeWhile_concat, act_op]
    cases h : op.isClear with
    | true =>
      cases op with
      | clear => rfl
      | _ => cases h
    | false =>
      have hread := (feed_read h (actAll ops empty).2).1
      simp only [Bool.not_false, if_true, List.flatMap_append, List.flatMap_singleton, feed_append]
      simp only [sinceClear] at ih
      simp only [ih, hread]

theorem act_whole {op : Op} (h : op.isWhole) (s : Framer) :
    act op s = (⟨op, (s.feed op.offered).1, op.offered, []⟩, (s.feed op.offered).2) := by
  cases op with
  | push b =>
    rw [Op.offered, feed_singleton]
    rfl
  | feed chunk => rfl
  | pull n chunk => cases h
  | clear => cases h

/-- Operations that take all that they are offered are a feed of it in one piece. -/
theorem feed_offered {ops : List Op} (h : ∀ op ∈ ops, op.isWhole) (s : Framer) :
    let run := actAll ops s
    s.feed (ops.flatMap Op.offered) = (run.1.flatMap Step.frames, run.2) ∧
      run.1.flatMap Step.read = ops.flatMap Op.offered := by
  induction ops generalizing s with
  | nil => exact ⟨rfl, rfl⟩
  | cons op ops ih =>
    obtain ⟨hop, hops⟩ := List.forall_mem_cons.mp h
    obtain ⟨hfeed, hread⟩ := ih hops (act op s).2
    rw [act_whole hop] at hfeed hread
    simp only [List.flatMap_cons, feed_append, actAll_cons_apply, act_whole hop, hfeed, hread,
      and_self]

theorem released_act (op : Op) (s : Framer) :
    let x := act op s
    s.pending ++ x.1.read = x.1.released ++ x.2.pending := by
  intro x
  cases h : op.isClear with
  | true =>
    cases op with
    | clear => simp [x, act, Step.released, empty]
    | _ => cases h
  | false =>
    obtain ⟨hread, hdropped⟩ := feed_read h s
    have hflat := flatten_feed s x.1.read
    rw [hread, ← List.flatMap_def] at hflat
    rw [Step.released, hdropped, List.append_nil, hflat]

/-- **No byte is lost.** What was pending and what a run reads is what it lets go of and what is
pending after it, in order. -/
theorem released_actAll (ops : List Op) (s : Framer) :
    let run := actAll ops s
    s.pending ++ run.1.flatMap Step.read = run.1.flatMap Step.released ++ run.2.pending := by
  induction ops generalizing s with
  | nil => exact List.append_nil _
  | cons op ops ih =>
    have hop := released_act op s
    have hops := ih (act op s).2
    simp only [actAll_cons_apply, List.flatMap_cons, List.append_assoc]
    rw [← List.append_assoc, hop, List.append_assoc, hops]

/-! ## Blocks and pulls -/

/-- The frames are the bytes, sixteen for each, and fewer than sixteen are left over. -/
structure Cut (bytes : List UInt8) (frames : List Frame) (pending : List UInt8) : Prop where
  whole : frames.flatMap Vector.toList ++ pending = bytes
  count : frames.length = bytes.length / 16
  block : ∀ i f, frames[i]? = some f → f.toList = (bytes.drop (16 * i)).take 16
  rest : pending.length = bytes.length % 16

theorem cut_feed (bs : List UInt8) :
    let out := empty.feed bs
    Cut bs out.1 out.2.pending := by
  intro out
  obtain ⟨hcount, hblock, hrest⟩ := empty.feed_blocks bs
  have hbytes : empty.pending ++ bs = bs := rfl
  rw [hbytes] at hrest
  refine ⟨?_, hcount, hblock, ?_⟩
  · rw [List.flatMap_def]
    exact empty.flatten_feed bs
  · have hlen : out.2.pending.length = bs.length - 16 * (bs.length / 16) := by
      rw [hrest, List.length_drop]
    omega

/-- The last of the bytes is the one that completes frame number `n`, counted from one. -/
def Completes (s : Framer) (n : Nat) (bs : List UInt8) : Prop :=
  (s.feed bs).1.length = n ∧ (s.feed bs.dropLast).1.length + 1 = n

/-- What is read of a chunk of which only `n` frames are asked for. -/
structure Pulls (s : Framer) (n : Nat) (chunk : List UInt8) (x : Step) : Prop where
  front : x.read <+: chunk
  frames : x.frames = (s.feed chunk).1.take n
  nothing : n = 0 → x.read = []
  enough : 1 ≤ n → n ≤ (s.feed chunk).1.length → s.Completes n x.read
  everything : (s.feed chunk).1.length < n → x.read = chunk

/-- The bytes that some frames need give just these frames. -/
theorem frames_take (s : Framer) (n : Nat) (chunk : List UInt8) :
    (s.feed (chunk.take (16 * n - s.pending.length))).1 = (s.feed chunk).1.take n := by
  have hshort := s.length_pending_lt
  by_cases hle : 16 * n - s.pending.length ≤ chunk.length
  · have hlen := s.length_feed (chunk.take (16 * n - s.pending.length))
    have happ := s.feed_append (chunk.take (16 * n - s.pending.length))
      (chunk.drop (16 * n - s.pending.length))
    rw [List.length_take] at hlen
    rw [List.take_append_drop] at happ
    rw [happ, List.take_left' (by omega)]
  · have hlen := s.length_feed chunk
    rw [List.take_of_length_le (by omega), List.take_of_length_le (by omega)]

theorem pulls_act (s : Framer) (n : Nat) (chunk : List UInt8) :
    s.Pulls n chunk (act (.pull n chunk) s).1 := by
  have hshort := s.length_pending_lt
  rw [act_pull]
  refine ⟨List.take_prefix _ _, s.frames_take n chunk, fun hn => ?_, fun hn hle => ?_,
    fun hlt => ?_⟩
  · subst hn
    rw [Nat.mul_zero, Nat.zero_sub, List.take_zero]
  · rw [length_feed] at hle
    constructor
    · rw [length_feed, List.length_take]
      omega
    · rw [length_feed, List.length_dropLast, List.length_take]
      omega
  · rw [length_feed] at hlt
    exact List.take_of_length_le (by omega)

end Framer

/-! ## A bounded buffer -/

/-- A buffer with room for the bytes of one frame. -/
structure Buffer where
  bytes : List UInt8
  fits : bytes.length ≤ Frame.size

namespace Buffer

def empty : Buffer := ⟨[], Nat.zero_le _⟩

/-- The buffer with one byte more; a full one refuses it. -/
def push? (u : Buffer) (b : UInt8) : Option Buffer :=
  if h : u.bytes.length < Frame.size then some ⟨u.bytes ++ [b], by rwa [List.length_append]⟩
  else none

/-- One byte goes into the buffer, unless that refuses it. A buffer that is full then is given up as
a frame. -/
def accept (u : Buffer) (b : UInt8) : Option Frame × Buffer :=
  let u' := (u.push? b).getD u
  if h : u'.bytes.length = Frame.size then (some ⟨u'.bytes.toArray, h⟩, empty) else (none, u')

/-- The frames that are given up on the way, and the buffer after the last byte. -/
def acceptAll (u : Buffer) : List UInt8 → List Frame × Buffer
  | [] => ([], u)
  | b :: bs =>
    let x := u.accept b
    let rest := x.2.acceptAll bs
    (x.1.toList ++ rest.1, rest.2)

end Buffer

namespace Framer

/-- The buffer that holds the pending bytes. -/
def buffer (s : Framer) : Buffer := ⟨s.pending, Nat.le_of_lt s.short⟩

/-- The buffer of a framer has room. -/
theorem push?_buffer (s : Framer) (b : UInt8) : s.buffer.push? b =
    some ⟨s.pending ++ [b], by rw [List.length_append]; exact s.short⟩ :=
  dif_pos s.short

theorem accept_buffer (s : Framer) (b : UInt8) :
    s.buffer.accept b = ((s.push b).1, (s.push b).2.buffer) := by
  have hlen : (s.pending ++ [b]).length = s.pending.length + 1 := List.length_append
  simp only [Buffer.accept, push?_buffer, Option.getD_some]
  by_cases h : s.pending.length + 1 < Frame.size
  · rw [push_of_lt h, dif_neg (by rw [hlen]; exact Nat.ne_of_lt h)]
    rfl
  · obtain ⟨f, hf, hpush⟩ := push_of_le (b := b) (Nat.not_lt.mp h)
    have hfull : (s.pending ++ [b]).length = Frame.size :=
      hlen.trans (Nat.le_antisymm s.short (Nat.not_lt.mp h))
    have hframe : (⟨(s.pending ++ [b]).toArray, hfull⟩ : Frame) = f := by
      rw [← Vector.toList_inj, hf]
      rfl
    rw [hpush, dif_pos hfull, hframe]
    rfl

theorem acceptAll_buffer (s : Framer) (bs : List UInt8) :
    s.buffer.acceptAll bs = ((s.feed bs).1, (s.feed bs).2.buffer) := by
  induction bs generalizing s with
  | nil => rfl
  | cons b bs ih =>
    simp only [Buffer.acceptAll, accept_buffer, ih, feed]
    rcases s.push b with ⟨_ | f, t⟩ <;> rfl

/-! ## The whole of it -/

theorem dropped_actAll {ops : List Op} {s : Framer} {x : Step} (hx : x ∈ (actAll ops s).1)
    (hc : x.op ≠ .clear) : x.dropped = [] := by
  induction ops generalizing s with
  | nil => cases hx
  | cons op ops ih =>
    rw [actAll_cons_apply] at hx
    rcases List.mem_cons.mp hx with rfl | hx
    · rw [act_op] at hc
      refine (feed_read ?_ s).2
      cases op with
      | clear => exact absurd rfl hc
      | _ => rfl
    · exact ih hx

/-- **The framer cuts exactly.** After any operations on an empty framer,

* the frames that it has given up since the last clear are the bytes that it has read since then,
  sixteen for each, and what is pending is the rest (`Cut`);
* a bounded buffer that accepts these bytes gives up the same frames and then holds what is pending,
  and after each of the bytes it holds less than a frame and has room for whatever byte is next;
* all bytes that it has read are in its frames, dropped by a clear, or pending, in their order;
* bytes that are pushed or fed are all read, and how they are cut into bytes and chunks makes no
  difference;
* of a chunk of which some frames are asked for it reads the bytes up to the one that completes the
  last of these frames, or all if there are fewer frames (`Pulls`);
* a clear drops what is pending, and leaves an empty framer. -/
theorem framer_cuts_exactly (ops : List Op) :
    let run := actAll ops empty
    let recent := sinceClear run.1
    let read := recent.flatMap Step.read
    let frames := recent.flatMap Step.frames
    let s := run.2
    let bounded := Buffer.empty.acceptAll read
    Cut read frames s.pending ∧
    (bounded.1 = frames ∧ bounded.2.bytes = s.pending ∧
      ∀ front, front <+: read →
        let u := (Buffer.empty.acceptAll front).2
        u.bytes.length < Frame.size ∧
          ∀ b, (u.push? b).map Buffer.bytes = some (u.bytes ++ [b])) ∧
    (run.1.flatMap Step.read = run.1.flatMap Step.released ++ s.pending ∧
      ∀ x ∈ run.1, x.op ≠ .clear → x.dropped = []) ∧
    (∀ xs ys : List Op, (∀ op ∈ xs ++ ys, op.isWhole) →
      xs.flatMap Op.offered = ys.flatMap Op.offered →
      let x := actAll xs s
      let y := actAll ys s
      x.1.flatMap Step.read = xs.flatMap Op.offered ∧
        x.1.flatMap Step.frames = y.1.flatMap Step.frames ∧ x.2 = y.2) ∧
    (∀ n chunk, s.Pulls n chunk (act (.pull n chunk) s).1) ∧
    act .clear s = (⟨.clear, [], [], s.pending⟩, empty) := by
  intro run recent read frames s bounded
  have hfeed : empty.feed read = (frames, s) := feed_sinceClear ops
  refine ⟨?_, ?_, ⟨?_, fun x hx hc => dropped_actAll hx hc⟩, fun xs ys hwhole hbytes => ?_,
    fun n chunk => s.pulls_act n chunk, rfl⟩
  · have hcut := cut_feed read
    rwa [hfeed] at hcut
  · have hout : bounded = (frames, s.buffer) := by
      have h := acceptAll_buffer empty read
      rwa [hfeed] at h
    refine ⟨by rw [hout], by rw [hout]; rfl, fun front _ => ?_⟩
    have hfront : Buffer.empty.acceptAll front = _ := acceptAll_buffer empty front
    simp only [hfront, push?_buffer]
    exact ⟨(empty.feed front).2.short, fun _ => rfl⟩
  · exact released_actAll ops empty
  · obtain ⟨hxs, hys⟩ := List.forall_mem_append.mp hwhole
    obtain ⟨hx, hread⟩ := feed_offered hxs s
    obtain ⟨hy, -⟩ := feed_offered hys s
    obtain ⟨hframes, hlast⟩ := Prod.ext_iff.mp (hx.symm.trans (hbytes ▸ hy))
    exact ⟨hread, hframes, hlast⟩

/-- Twenty bytes come in and what is left of them is cleared. Then one byte is pending, and of a
chunk of forty the two frames that are asked for need thirty-one. -/
theorem two_frames_of_forty_bytes :
    let s := (actAll [.feed (List.replicate 20 1), .clear, .push 2] empty).2
    let chunk : List UInt8 := List.replicate 40 3
    s.pending = [2] ∧
    s.Completes 2 (act (.pull 2 chunk) s).1.read ∧ (act (.pull 2 chunk) s).1.read.length = 31 ∧
    (actAll [.feed [4, 5, 6]] s).2 = (actAll [.push 4, .feed [], .feed [5, 6]] s).2 := by
  intro s chunk
  obtain ⟨-, -, -, hsplit, hpull, -⟩ :=
    framer_cuts_exactly [.feed (List.replicate 20 1), .clear, .push 2]
  have hs : (actAll [.feed (List.replicate 20 1), .clear, .push 2] empty).2 = s := rfl
  rw [hs] at hsplit hpull
  obtain ⟨-, -, hsame⟩ := hsplit [.feed [4, 5, 6]] [.push 4, .feed [], .feed [5, 6]] (by decide)
    (by decide)
  have hpending : s.pending = [2] := by decide +kernel
  have hfits : 2 ≤ (s.feed chunk).1.length := by decide +kernel
  have hlength : (act (.pull 2 chunk) s).1.read.length = 31 := by decide +kernel
  exact ⟨hpending, (hpull 2 chunk).enough (by decide) hfits, hlength, hsame⟩

end Framer

end RadioControl
