/-!
# Frames and their payload

A frame is sixteen bytes: two head bytes and then seven tuples, each an address byte and a data
byte. Requests and responses have this layout in common. `Payload.ofFrame` and `Payload.toFrame` are
the two directions between bytes and tuples.

The layout is in five numbers (`Frame.size` to `Frame.slots`). `Frame.data_lt` and `Frame.slot_lt`
say that the tuples fit into a frame and fill it.
-/

namespace RadioControl

/-- The length of a frame in bytes. -/
abbrev Frame.size : Nat := 16

/-- The place of the control byte in a frame. -/
abbrev Frame.controlOffset : Nat := 0

/-- The place of the first tuple in a frame. -/
abbrev Frame.payloadOffset : Nat := 2

/-- The number of bytes in a tuple. -/
abbrev Frame.stride : Nat := 2

/-- The number of tuples in a frame. -/
abbrev Frame.slots : Nat := 7

/-- The bytes of a frame. -/
abbrev Frame := Vector UInt8 Frame.size

namespace Frame

/-- The first head byte. -/
def first (f : Frame) : UInt8 := f[controlOffset]

/-- The second head byte. -/
def second (f : Frame) : UInt8 := f[controlOffset + 1]

theorem length_toList (f : Frame) : f.toList.length = 16 := Vector.length_toList

/-- The data byte of a tuple lies within the frame. -/
theorem data_lt {i : Nat} (h : i < slots) : payloadOffset + stride * i + 1 < size := by
  unfold slots at h
  unfold payloadOffset stride size
  omega

theorem address_lt {i : Nat} (h : i < slots) : payloadOffset + stride * i < size :=
  Nat.lt_of_succ_lt (data_lt h)

/-- Every byte after the head belongs to a tuple. -/
theorem slot_lt {k : Nat} (h : k < size) : (k - payloadOffset) / stride < slots := by
  unfold size at h
  unfold payloadOffset stride slots
  omega

end Frame

/-- An address and the byte that goes with it. -/
structure Tuple where
  address : UInt8
  data : UInt8
  deriving DecidableEq, Repr

def Tuple.zero : Tuple := ⟨0, 0⟩

/-- The seven tuples of a frame. -/
abbrev Payload := Vector Tuple Frame.slots

namespace Payload

/-- The tuples that a frame holds, each an address byte and the data byte after it. -/
def ofFrame (f : Frame) : Payload := Vector.ofFn fun i =>
  ⟨f.get ⟨Frame.payloadOffset + Frame.stride * i, Frame.address_lt i.isLt⟩,
    f.get ⟨Frame.payloadOffset + Frame.stride * i + 1, Frame.data_lt i.isLt⟩⟩

/-- The frame with two head bytes and these tuples. -/
def toFrame (head : UInt8 × UInt8) (p : Payload) : Frame := Vector.ofFn fun k =>
  if k.val = Frame.controlOffset then head.1
  else if k.val < Frame.payloadOffset then head.2
  else
    let t := p.get ⟨(k.val - Frame.payloadOffset) / Frame.stride, Frame.slot_lt k.isLt⟩
    if (k.val - Frame.payloadOffset) % Frame.stride = 0 then t.address else t.data

def zero : Payload := Vector.replicate Frame.slots Tuple.zero

/-- The tuples of `ts` in the first slots, as far as there are slots, and `p` in the others. -/
def overlay (p : Payload) (ts : List Tuple) : Payload :=
  Vector.ofFn fun i => (ts[i.val]?).getD p[i.val]

/-- Tuple `i` is in the bytes `2 + 2 * i` and `3 + 2 * i`. -/
theorem getElem_ofFrame (f : Frame) (i : Nat) (h : i < 7) :
    (ofFrame f)[i] =
      ⟨f.get ⟨2 + 2 * i, show 2 + 2 * i < 16 by omega⟩,
        f.get ⟨3 + 2 * i, show 3 + 2 * i < 16 by omega⟩⟩ := by
  have hd : Frame.payloadOffset + Frame.stride * i + 1 = 3 + 2 * i := by
    unfold Frame.payloadOffset Frame.stride
    omega
  simp only [ofFrame, Vector.getElem_ofFn, hd]

theorem getElem_toFrame (head : UInt8 × UInt8) (p : Payload) (k : Nat) (h : k < 16) :
    (toFrame head p)[k] =
      if k = 0 then head.1
      else if k < 2 then head.2
      else if k % 2 = 0 then (p.get ⟨(k - 2) / 2, Frame.slot_lt h⟩).address
      else (p.get ⟨(k - 2) / 2, Frame.slot_lt h⟩).data := by
  simp only [toFrame, Vector.getElem_ofFn, Frame.controlOffset, Frame.payloadOffset, Frame.stride]
  by_cases h2 : k < 2
  · rw [if_pos h2, if_pos h2]
  · have hk : (k - 2) % 2 = k % 2 := by omega
    rw [if_neg h2, if_neg h2, hk]

theorem getElem_overlay (p : Payload) (ts : List Tuple) (i : Nat) (h : i < 7) :
    (p.overlay ts)[i] = (ts[i]?).getD p[i] := by
  simp [overlay]

@[simp] theorem first_toFrame (head : UInt8 × UInt8) (p : Payload) :
    (toFrame head p).first = head.1 := getElem_toFrame head p 0 (by decide)

@[simp] theorem second_toFrame (head : UInt8 × UInt8) (p : Payload) :
    (toFrame head p).second = head.2 := getElem_toFrame head p 1 (by decide)

theorem ofFrame_toFrame (head : UInt8 × UInt8) (p : Payload) : ofFrame (toFrame head p) = p := by
  apply Vector.ext
  intro i h
  have h7 : i < 7 := h
  have haddress := getElem_toFrame head p (2 + 2 * i) (by omega)
  have hdata := getElem_toFrame head p (3 + 2 * i) (by omega)
  have ha : (2 + 2 * i - 2) / 2 = i := by omega
  have hd : (3 + 2 * i - 2) / 2 = i := by omega
  simp only [ha] at haddress
  simp only [hd] at hdata
  rw [if_neg (by omega), if_neg (by omega), if_pos (by omega)] at haddress
  rw [if_neg (by omega), if_neg (by omega), if_neg (by omega)] at hdata
  rw [getElem_ofFrame _ i h7]
  exact congr (congrArg Tuple.mk haddress) hdata

theorem toFrame_ofFrame (f : Frame) : toFrame (f.first, f.second) (ofFrame f) = f := by
  apply Vector.ext
  intro k h
  have h16 : k < 16 := h
  have htuple := getElem_ofFrame f ((k - 2) / 2) (by omega)
  rw [getElem_toFrame _ _ k h16]
  split
  · rename_i h0
    subst h0
    rfl
  · split
    · have h1 : k = 1 := by omega
      subst h1
      rfl
    · have ha : k % 2 = 0 → 2 + 2 * ((k - 2) / 2) = k := by omega
      have hd : k % 2 ≠ 0 → 3 + 2 * ((k - 2) / 2) = k := by omega
      split
      · rename_i he
        simp only [ha he] at htuple
        exact congrArg Tuple.address htuple
      · rename_i ho
        simp only [hd ho] at htuple
        exact congrArg Tuple.data htuple

@[simp] theorem overlay_nil (p : Payload) : p.overlay [] = p := by
  apply Vector.ext
  intro i h
  simp [overlay]

end Payload

end RadioControl
