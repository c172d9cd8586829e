import Mathlib
import RadioControl.Frame.Request

/-!
# Requests as bytes

What the host packs into a frame is what the station reads out of it, and a frame says no more than
that. The tuples are written into the bytes one slot after the other (`Frame.store`,
`Frame.storeFrom`) and read back slot by slot, and both walks have to agree on the offsets.

* `ofFrame_store`: to write the two bytes of slot `i` is to set tuple `i`. The head bytes and the
  other slots keep what they held, and a slot past the end has no bytes.
* `getElem_ofFrame_storeFrom`: the invariant of the walk. The slots it has passed hold its tuples,
  the others what they held.
* `toFrame_pack`: a packed request is what the walk writes into an empty frame.
* `pack_tuples`: to read a frame and pack it again loses the spare byte only.
* `toList_toFrame`: a frame as the list of its bytes.

`request_codec_round_trip` puts them together.
-/

namespace RadioControl

/-! ## The bytes of a slot -/

namespace Frame

/-- The place of tuple `i`, if there is such a slot. -/
def tupleOffset (i : Nat) : Nat := payloadOffset + i * stride

theorem tupleOffset_eq (i : Nat) : tupleOffset i = 2 + 2 * i := by
  unfold tupleOffset payloadOffset stride
  omega

theorem tupleOffset_succ (i : Nat) : tupleOffset i + 1 = 3 + 2 * i := by
  rw [tupleOffset_eq]
  omega

/-- The frame with a tuple in the two bytes of slot `i`; the same frame if there is no such slot. -/
def store (f : Frame) (i : Nat) (t : Tuple) : Frame :=
  (f.setIfInBounds (tupleOffset i) t.address).setIfInBounds (tupleOffset i + 1) t.data

/-- The frame with the tuples `ts` written into its slots one after the other, from slot `i` on. -/
def storeFrom (f : Frame) (i : Nat) : List Tuple → Frame
  | [] => f
  | t :: ts => (f.store i t).storeFrom (i + 1) ts

/-- The head bytes and the tuples are the whole frame. -/
theorem ext_payload {f g : Frame} (hfirst : f.first = g.first) (hsecond : f.second = g.second)
    (hpayload : Payload.ofFrame f = Payload.ofFrame g) : f = g := by
  rw [← Payload.toFrame_ofFrame f, ← Payload.toFrame_ofFrame g, hfirst, hsecond, hpayload]

theorem first_store (f : Frame) (i : Nat) (t : Tuple) : (f.store i t).first = f.first := by
  show (f.store i t)[0] = f[0]
  simp [store, tupleOffset_eq]

theorem second_store (f : Frame) (i : Nat) (t : Tuple) : (f.store i t).second = f.second := by
  show (f.store i t)[1] = f[1]
  have h : 2 + 2 * i ≠ 1 := by omega
  simp [store, tupleOffset_eq, h]

theorem first_storeFrom (f : Frame) (i : Nat) (ts : List Tuple) :
    (f.storeFrom i ts).first = f.first := by
  induction ts generalizing f i with
  | nil => rfl
  | cons t ts ih => rw [storeFrom, ih, first_store]

theorem second_storeFrom (f : Frame) (i : Nat) (ts : List Tuple) :
    (f.storeFrom i ts).second = f.second := by
  induction ts generalizing f i with
  | nil => rfl
  | cons t ts ih => rw [storeFrom, ih, second_store]

end Frame

/-- The entries of a list that is cut or padded to a length. -/
theorem getElem?_takeD {α : Type} (n : Nat) (xs : List α) (x : α) (i : Nat) :
    (xs.takeD n x)[i]? = if i < n then some ((xs[i]?).getD x) else none := by
  induction n generalizing xs i with
  | zero => simp
  | succ n ih =>
    rw [List.takeD_succ]
    cases i with
    | zero => simp [List.head?_eq_getElem?]
    | succ i =>
      rw [List.getElem?_cons_succ, ih, List.getElem?_tail]
      simp

namespace Payload

/-- To write the two bytes of a slot is to set its tuple: no two slots share a byte. -/
theorem ofFrame_store (f : Frame) (i : Nat) (t : Tuple) :
    ofFrame (f.store i t) = (ofFrame f).setIfInBounds i t := by
  apply Vector.ext
  intro j hj
  rw [Frame.store, Frame.tupleOffset_succ, Frame.tupleOffset_eq]
  simp only [getElem_ofFrame, Vector.get_eq_getElem, Vector.getElem_setIfInBounds]
  by_cases hij : i = j
  · subst hij
    simp
  · have hsame : 2 + 2 * i ≠ 2 + 2 * j ∧ 3 + 2 * i ≠ 3 + 2 * j := by omega
    have hother : 3 + 2 * i ≠ 2 + 2 * j ∧ 2 + 2 * i ≠ 3 + 2 * j := by omega
    rw [if_neg hsame.1, if_neg hsame.2, if_neg hother.1, if_neg hother.2, if_neg hij]

/-- A walk that writes `ts` from slot `k` on has them in these slots and leaves the others. -/
theorem getElem_ofFrame_storeFrom (f : Frame) (k : Nat) (ts : List Tuple) (i : Nat) (h : i < 7) :
    (ofFrame (f.storeFrom k ts))[i] =
      if i < k then (ofFrame f)[i] else (ts[i - k]?).getD (ofFrame f)[i] := by
  induction ts generalizing f k with
  | nil => simp [Frame.storeFrom]
  | cons t ts ih =>
    rw [Frame.storeFrom, ih]
    simp only [ofFrame_store, Vector.getElem_setIfInBounds]
    -- The first tuple goes to slot `k`, which the rest of the walk does not come back to.
    rcases Nat.lt_trichotomy i k with hlt | rfl | hgt
    · simp [hlt, Nat.lt_succ_of_lt hlt, Nat.ne_of_gt hlt]
    · simp
    · have hsucc : i - k = i - (k + 1) + 1 := by omega
      simp [hsucc, show ¬ i < k + 1 by omega, show ¬ i < k by omega, Nat.ne_of_lt hgt]

/-- The tuples of `ts` on empty slots: the first seven, padded with zeros. -/
theorem toList_overlay_zero (ts : List Tuple) :
    (zero.overlay ts).toList = ts.takeD 7 Tuple.zero := by
  apply List.ext_getElem?
  intro i
  rw [getElem?_takeD, Vector.getElem?_toList]
  by_cases h : i < 7
  · simp [h, getElem_overlay, zero]
  · simp [h]

end Payload

/-! ## Frames as lists of bytes -/

namespace Tuple

/-- The two bytes of a tuple. -/
def bytes (t : Tuple) : List UInt8 := [t.address, t.data]

theorem getElem?_flatMap_bytes (ts : List Tuple) (i : Nat) :
    (ts.flatMap bytes)[2 * i]? = ts[i]?.map address ∧
      (ts.flatMap bytes)[2 * i + 1]? = ts[i]?.map data := by
  induction ts generalizing i with
  | nil => exact ⟨rfl, rfl⟩
  | cons t ts ih =>
    cases i with
    | zero => exact ⟨rfl, rfl⟩
    | succ i => exact ih i

end Tuple

namespace Payload

theorem getElem?_toFrame (head : UInt8 × UInt8) (p : Payload) (i : Nat) :
    (toFrame head p)[2 * i + 2]? = p[i]?.map Tuple.address ∧
      (toFrame head p)[2 * i + 3]? = p[i]?.map Tuple.data := by
  rw [Nat.add_comm _ 2, Nat.add_comm _ 3]
  rcases Nat.lt_or_ge i 7 with h | h
  · have ha : 2 + 2 * i < 16 := by omega
    have hd : 3 + 2 * i < 16 := by omega
    have hp := getElem_ofFrame (toFrame head p) i h
    simp only [ofFrame_toFrame] at hp
    rw [Vector.getElem?_eq_getElem ha, Vector.getElem?_eq_getElem hd, Vector.getElem?_eq_getElem h,
      hp]
    exact ⟨rfl, rfl⟩
  · have ha : 16 ≤ 2 + 2 * i := by omega
    have hd : 16 ≤ 3 + 2 * i := by omega
    rw [Vector.getElem?_eq_none ha, Vector.getElem?_eq_none hd, Vector.getElem?_eq_none h]
    exact ⟨rfl, rfl⟩

/-- A frame is its head bytes and then the bytes of its tuples. -/
theorem toList_toFrame (head : UInt8 × UInt8) (p : Payload) :
    (toFrame head p).toList = head.1 :: head.2 :: p.toList.flatMap Tuple.bytes := by
  apply List.ext_getElem?
  intro k
  rw [Vector.getElem?_toList]
  match k with
  | 0 =>
    rw [Vector.getElem?_eq_getElem (by decide)]
    exact congrArg some (first_toFrame head p)
  | 1 =>
    rw [Vector.getElem?_eq_getElem (by decide)]
    exact congrArg some (second_toFrame head p)
  | k + 2 =>
    rw [List.getElem?_cons_succ, List.getElem?_cons_succ]
    obtain ⟨i, rfl | rfl⟩ := k.even_or_odd'
    · rw [(Tuple.getElem?_flatMap_bytes _ i).1, Vector.getElem?_toList]
      exact (getElem?_toFrame head p i).1
    · rw [(Tuple.getElem?_flatMap_bytes _ i).2, Vector.getElem?_toList]
      exact (getElem?_toFrame head p i).2

end Payload

namespace Request

/-- The bytes of a request, one after another. -/
def bytes (r : Request) : List UInt8 :=
  r.control.byte :: r.spare :: r.payload.toList.flatMap Tuple.bytes

theorem toList_toFrame (r : Request) : r.toFrame.toList = r.bytes := Payload.toList_toFrame _ _

end Request

/-! ## Packing and reading -/

namespace Request

/-- The frame of a packed request is the one that the walk over its tuples leaves. -/
theorem toFrame_pack (c : ControlByte) (ts : List Tuple) :
    (pack c ts).toFrame = Frame.storeFrom ((Vector.replicate 16 0).set 0 c.byte) 0 (ts.take 7) := by
  apply Frame.ext_payload
  · rw [Frame.first_storeFrom, toFrame, Payload.first_toFrame]
    rfl
  · rw [Frame.second_storeFrom, toFrame, Payload.second_toFrame]
    rfl
  · apply Vector.ext
    intro i h
    rw [Payload.getElem_ofFrame_storeFrom _ _ _ _ h, if_neg (Nat.not_lt_zero i)]
    have hoff : 0 ≠ 2 + 2 * i ∧ 0 ≠ 3 + 2 * i := by omega
    have hempty : (Payload.ofFrame ((Vector.replicate 16 0).set 0 c.byte))[i] = Tuple.zero := by
      rw [Payload.getElem_ofFrame _ _ h]
      simp [Vector.get_eq_getElem, hoff, Tuple.zero]
    simp only [hempty, toFrame, Payload.ofFrame_toFrame, pack, Payload.getElem_overlay _ _ _ h]
    simp [Payload.zero, h]

theorem tuple?_pack (c : ControlByte) (ts : List Tuple) (i : Nat) :
    (pack c ts).tuple? i = if i < 7 then some ((ts[i]?).getD Tuple.zero) else none := by
  rw [tuple?, pack, ← Vector.getElem?_toList, Payload.toList_overlay_zero, getElem?_takeD]

/-- A tuple is read from the two bytes of its slot. Past the slots there are no such bytes. -/
theorem tuple?_ofFrame (f : Frame) (i : Nat) (t : Tuple) :
    (ofFrame f).tuple? i = some t ↔
      f[Frame.tupleOffset i]? = some t.address ∧ f[Frame.tupleOffset i + 1]? = some t.data := by
  obtain ⟨address, data⟩ := t
  rw [Frame.tupleOffset_succ, Frame.tupleOffset_eq]
  by_cases h : i < 7
  · have hfst : 2 + 2 * i < 16 := by omega
    have hsnd : 3 + 2 * i < 16 := by omega
    simp [tuple?, ofFrame, h, hfst, hsnd, Payload.getElem_ofFrame, Vector.get_eq_getElem]
  · have hfst : ¬ 2 + 2 * i < 16 := by omega
    simp [tuple?, h, hfst]

/-- The first `n` tuples are those of the first `n` slots, as far as there are slots. -/
theorem map_some_tuples (r : Request) (n : Nat) :
    (r.tuples n).map some = (List.range (min n 7)).map r.tuple? := by
  apply List.ext_getElem
  · simp [tuples]
  · intro i hi hi'
    have h7 : i < 7 := by simp at hi'; omega
    simp [tuples, tuple?, h7]

/-- All of a frame but the spare byte goes through its control byte and its tuples. -/
theorem pack_tuples (f : Frame) {n : Nat} (h : 7 ≤ n) :
    pack (ofFrame f).control ((ofFrame f).tuples n) = { ofFrame f with spare := 0 } := by
  have hall : (ofFrame f).tuples n = (ofFrame f).payload.toList :=
    List.take_of_length_le (by simpa using h)
  have hpayload : Payload.zero.overlay (ofFrame f).payload.toList = (ofFrame f).payload := by
    apply Vector.ext
    intro i hi
    simp [Payload.getElem_overlay, hi]
  rw [hall, pack, hpayload]

/-- To clear the spare byte is to clear the second byte of the frame. -/
theorem toFrame_clear_spare (f : Frame) :
    { ofFrame f with spare := 0 : Request }.toFrame = f.set 1 0 := by
  have hoff : ∀ i : Nat, 1 ≠ 2 + 2 * i ∧ 1 ≠ 3 + 2 * i := by omega
  apply Frame.ext_payload
  · rw [toFrame, Payload.first_toFrame]
    exact (Vector.getElem_set_ne (i := 1) (j := 0) (by decide) (by decide) (by decide)).symm
  · rw [toFrame, Payload.second_toFrame]
    exact (Vector.getElem_set_self (by decide)).symm
  · rw [toFrame, Payload.ofFrame_toFrame]
    apply Vector.ext
    intro i h
    simp [ofFrame, Payload.getElem_ofFrame, Vector.get_eq_getElem, hoff]

/-- Two requests are packed alike just when the same control byte and the same seven tuples go
in. -/
theorem pack_eq_pack_iff (c c' : ControlByte) (ts ts' : List Tuple) :
    pack c ts = pack c' ts' ↔
      c = c' ∧ ts.takeD 7 Tuple.zero = ts'.takeD 7 Tuple.zero := by
  rw [← Payload.toList_overlay_zero, ← Payload.toList_overlay_zero, Vector.toList_inj]
  simp [pack]

/-- A frame keeps all of a request. -/
theorem toFrame_injective : Function.Injective toFrame :=
  Function.LeftInverse.injective ofFrame_toFrame

/-- **Packing and reading undo each other.** A packed frame reads back its control byte and its
tuples, with zeros for the slots that are left over and nothing past the seventh; what is read from
a frame packs to it again, its second byte cleared; and so a packed frame says which control byte
and which seven tuples went in. A control byte reads back its direction, its device and the low
three bits of its count. -/
theorem request_codec_round_trip :
    -- What is packed is read back.
    (∀ (c : ControlByte) (ts : List Tuple),
      let f := (pack c ts).toFrame
      let r := ofFrame f
      f = Frame.storeFrom ((Vector.replicate 16 0).set 0 c.byte) 0 (ts.take 7) ∧
      r.control = c ∧
      f.second = 0 ∧
      (∀ i t, i < 7 → ts[i]? = some t → r.tuple? i = some t) ∧
      (∀ i, ts.length ≤ i → i < 7 → r.tuple? i = some Tuple.zero) ∧
      (∀ i, 7 ≤ i → r.tuple? i = none)) ∧
    -- Tuples are read from their own two bytes, one by one or from the first on.
    (∀ f : Frame,
      let r := ofFrame f
      (∀ i t, r.tuple? i = some t ↔
        f[Frame.tupleOffset i]? = some t.address ∧
        f[Frame.tupleOffset i + 1]? = some t.data) ∧
      (∀ n, (r.tuples n).map some = (List.range (min n 7)).map r.tuple?) ∧
      (∀ n, 7 ≤ n → (pack r.control (r.tuples n)).toFrame = f.set 1 0)) ∧
    -- Nothing else than the control byte and the padded tuples decides the bytes.
    (∀ (c c' : ControlByte) (ts ts' : List Tuple),
      (pack c ts).toFrame = (pack c' ts').toFrame ↔
        c = c' ∧ ts.takeD 7 Tuple.zero = ts'.takeD 7 Tuple.zero) ∧
    -- The control byte.
    (∀ (direction : Direction) (device : Device) (count : UInt8),
      let c := ControlByte.pack direction device count
      c.direction? = some direction ∧ c.device = device ∧ c.count = count.toNat % 8) := by
  refine ⟨fun c ts => ?_, fun f => ?_, fun c c' ts ts' => ?_, fun direction device count => ?_⟩
  · intro f r
    have hr : r = pack c ts := ofFrame_toFrame _
    refine ⟨toFrame_pack c ts, congrArg control hr, Payload.second_toFrame .., ?_, ?_, ?_⟩
    · intro i t h ht
      rw [hr, tuple?_pack, if_pos h, ht, Option.getD_some]
    · intro i hi h
      rw [hr, tuple?_pack, if_pos h, List.getElem?_eq_none hi, Option.getD_none]
    · intro i h
      rw [hr, tuple?_pack, if_neg (Nat.not_lt.mpr h)]
  · refine ⟨tuple?_ofFrame f, map_some_tuples _, fun n h => ?_⟩
    rw [pack_tuples f h, toFrame_clear_spare]
  · rw [toFrame_injective.eq_iff, pack_eq_pack_iff]
  · exact ⟨ControlByte.direction?_pack .., ControlByte.device_pack .., ControlByte.count_pack ..⟩

/-- Of nine tuples the seventh is read back and the last two are lost, and so is the upper part of
their count. Whoever asks for all nine gets what packs to the same frame. -/
theorem ninth_tuple_is_lost :
    let c := ControlByte.pack .write .config 9
    let ts := (List.range 9).map fun k => (⟨UInt8.ofNat (0x10 + k), UInt8.ofNat k⟩ : Tuple)
    let f := (pack c ts).toFrame
    let r := ofFrame f
    c.count = 1 ∧ r.tuple? 6 = some ⟨0x16, 6⟩ ∧ r.tuple? 7 = none ∧
      (pack r.control (r.tuples 9)).toFrame = f.set 1 0 := by
  intro c ts f r
  obtain ⟨hpack, hread, -, hcontrol⟩ := request_codec_round_trip
  obtain ⟨-, -, -, hheld, -, hpast⟩ := hpack c ts
  obtain ⟨-, -, hagain⟩ := hread f
  have hcount : c.count = 1 := (hcontrol .write .config 9).2.2
  exact ⟨hcount, hheld 6 _ (by decide) rfl, hpast 7 (by decide), hagain 9 (by decide)⟩

end Request

end RadioControl
