import RadioControl.Frame.Payload

/-!
# Cutting a byte stream into frames

The serial line brings bytes one at a time. A `Framer` holds the bytes of the frame that is not
complete yet, fewer than sixteen by its type, and gives up a frame with the sixteenth byte.

* `push` takes one byte, `feed` all bytes of a chunk, and `pull n` as many bytes of a chunk as the
  next `n` frames need; the rest of the chunk is handed back unread.
* `flatten_feed`: the frames and what is pending are the bytes, in order.
* `feed_append`: how the bytes are cut into chunks does not matter.
-/

namespace RadioControl

/-- The bytes of the next frame so far. -/
structure Framer where
  pending : List UInt8
  short : pending.length < Frame.size

namespace Framer

def empty : Framer := ⟨[], by decide⟩

/-- One more byte that completes no frame. -/
def hold (s : Framer) (b : UInt8) (h : s.pending.length + 1 < Frame.size) : Framer :=
  ⟨s.pending ++ [b], by rwa [List.length_append]⟩

/-- The frame that a byte completes, if it does, and what is pending after it. -/
def push (s : Framer) (b : UInt8) : Option Frame × Framer :=
  if h : s.pending.length + 1 < Frame.size then (none, s.hold b h)
  else (some ⟨(s.pending ++ [b]).toArray, by have := s.short; simp; omega⟩, empty)

/-- The frames that complete in a chunk, and what is pending after it. -/
def feed (s : Framer) : List UInt8 → List Frame × Framer
  | [] => ([], s)
  | b :: bs =>
    match s.push b with
    | (none, s) => s.feed bs
    | (some f, s) => match s.feed bs with
      | (fs, s) => (f :: fs, s)

/-- The next `n` frames of a chunk, or all if fewer complete, what is pending after them, and the
bytes after the last frame, unread. -/
def pull (s : Framer) : Nat → List UInt8 → List Frame × Framer × List UInt8
  | 0, bs => ([], s, bs)
  | _ + 1, [] => ([], s, [])
  | n + 1, b :: bs =>
    match s.push b with
    | (none, s) => s.pull (n + 1) bs
    | (some f, s) => match s.pull n bs with
      | (fs, s, rest) => (f :: fs, s, rest)

theorem length_pending_lt (s : Framer) : s.pending.length < 16 := s.short

/-- The pending bytes are the whole state. -/
theorem ext {s t : Framer} (h : s.pending = t.pending) : s = t := by
  cases s; cases t; cases h; rfl

theorem push_of_lt {s : Framer} {b : UInt8} (h : s.pending.length + 1 < Frame.size) :
    s.push b = (none, s.hold b h) := dif_pos h

/-- The sixteenth byte completes a frame: the pending bytes and the byte itself. -/
theorem push_of_le {s : Framer} {b : UInt8} (h : Frame.size ≤ s.pending.length + 1) :
    ∃ f : Frame, f.toList = s.pending ++ [b] ∧ s.push b = (some f, empty) :=
  ⟨⟨(s.pending ++ [b]).toArray, by have := s.short; simp; omega⟩, by simp [Vector.toList],
    dif_neg (by omega)⟩

theorem feed_append (s : Framer) (as bs : List UInt8) :
    s.feed (as ++ bs) =
      ((s.feed as).1 ++ ((s.feed as).2.feed bs).1, ((s.feed as).2.feed bs).2) := by
  induction as generalizing s with
  | nil => rfl
  | cons a as ih =>
    rw [List.cons_append, feed, feed]
    cases h : s.push a with
    | mk f? t => cases f? <;> simp [ih]

/-- No byte is lost, doubled or moved. -/
theorem flatten_feed (s : Framer) (bs : List UInt8) :
    ((s.feed bs).1.map Vector.toList).flatten ++ (s.feed bs).2.pending = s.pending ++ bs := by
  induction bs generalizing s with
  | nil => simp [feed]
  | cons b bs ih =>
    rw [feed]
    by_cases h : s.pending.length + 1 < Frame.size
    · rw [push_of_lt h]
      simpa [hold] using ih (s.hold b h)
    · obtain ⟨f, hf, hp⟩ := push_of_le (b := b) (Nat.not_lt.mp h)
      rw [hp]
      simp only [List.map_cons, List.flatten_cons, hf, List.append_assoc, ih empty]
      simp [empty]

end Framer

end RadioControl
