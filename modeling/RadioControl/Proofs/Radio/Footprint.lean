import Mathlib
import RadioControl.Board.Memory
import RadioControl.I2c.Chip
import RadioControl.I2c.ClockSynth
import RadioControl.Proofs.Radio.Devices
import RadioControl.Proofs.Transfer.Footprint
import RadioControl.Spi.Chip
import RadioControl.Spi.Transceiver

/-!
# What a request changes in its response

A response is what was there before with the replies laid over its first slots (`Frame.Overlaid`),
and the replies have nothing of what was there. So the number of replies tells which bytes are new.
`footprint` says how many they are for each request, wherever the transfer engine is.
-/

namespace RadioControl

/-! ## Bytes -/

/-- The frame `f'` has the tuples in its first slots, and all its other bytes are those of `f`. -/
structure Frame.Overlaid (f f' : Frame) (ts : List Tuple) : Prop where
  written : ∀ {i t}, ts[i]? = some t →
    f'[Frame.payloadOffset + Frame.stride * i]? = some t.address ∧
    f'[Frame.payloadOffset + Frame.stride * i + 1]? = some t.data
  kept : ∀ {k}, k < Frame.payloadOffset ∨ Frame.payloadOffset + Frame.stride * ts.length ≤ k →
    f'[k]? = f[k]?

namespace Response

variable {f : Frame} {ts : List Tuple}

theorem getElem_toFrame_fill (f : Frame) (ts : List Tuple) {k : Nat} (hk : k < 16) :
    ((ofFrame f).fill ts).toFrame[k] =
      if k < 2 then f[k]
      else if k % 2 = 0 then (ts[(k - 2) / 2]?.map Tuple.address).getD f[k]
      else (ts[(k - 2) / 2]?.map Tuple.data).getD f[k] := by
  have hslot : ∀ (g : Tuple → UInt8) (t : Tuple) (t? : Option Tuple),
      g (t?.getD t) = (t?.map g).getD (g t) := fun g t t? => by cases t? <;> rfl
  rw [toFrame, Payload.getElem_toFrame _ _ k hk]
  rcases Nat.lt_or_ge k 2 with h2 | h2
  · rw [if_pos h2, if_pos h2]
    have : k = 0 ∨ k = 1 := by omega
    rcases this with rfl | rfl
    · rfl
    · rfl
  · have hi : (k - 2) / 2 < 7 := by omega
    rw [if_neg (Nat.not_lt.mpr h2), if_neg (by omega), if_neg (Nat.not_lt.mpr h2)]
    simp only [Vector.get_eq_getElem, fill, ofFrame, Payload.getElem_overlay _ _ _ hi,
      Payload.getElem_ofFrame _ _ hi, hslot Tuple.address, hslot Tuple.data]
    by_cases he : k % 2 = 0
    · have hback : 2 + 2 * ((k - 2) / 2) = k := by omega
      simp only [if_pos he, hback]
    · have hback : 3 + 2 * ((k - 2) / 2) = k := by omega
      simp only [if_neg he, hback]

theorem overlaid_fill (h : ts.length ≤ Frame.slots) :
    f.Overlaid ((ofFrame f).fill ts).toFrame ts where
  written {i t} ht := by
    have hi : i < Frame.slots := Nat.lt_of_lt_of_le (List.getElem?_eq_some_iff.mp ht).1 h
    have haddress : 2 + 2 * i < 16 := Frame.address_lt hi
    have hdata : 2 + 2 * i + 1 < 16 := Frame.data_lt hi
    have ha : (2 + 2 * i - 2) / 2 = i := by omega
    have hd : (2 + 2 * i + 1 - 2) / 2 = i := by omega
    unfold Frame.payloadOffset Frame.stride
    constructor
    · rw [Vector.getElem?_eq_getElem haddress, getElem_toFrame_fill f ts haddress,
        if_neg (by omega), if_pos (by omega), ha, ht]
      rfl
    · rw [Vector.getElem?_eq_getElem hdata, getElem_toFrame_fill f ts hdata,
        if_neg (by omega), if_neg (by omega), hd, ht]
      rfl
  kept {k} hk := by
    rcases Nat.lt_or_ge k 16 with h16 | h16
    · rw [Vector.getElem?_eq_getElem h16, Vector.getElem?_eq_getElem h16,
        getElem_toFrame_fill f ts h16]
      by_cases h2 : k < 2
      · rw [if_pos h2]
      · unfold Frame.payloadOffset Frame.stride at hk
        have hnone : ts[(k - 2) / 2]? = none := List.getElem?_eq_none (by omega)
        rw [if_neg h2, hnone]
        split <;> rfl
    · rw [Vector.getElem?_eq_none h16, Vector.getElem?_eq_none h16]

end Response

namespace Request

/-- A frame that counts tuples begins with the first of them. -/
theorem tuples_eq_cons (q : Request) {n : Nat} (h : 1 ≤ n) :
    ∃ xs, q.tuples n = q.payload.get 0 :: xs := by
  refine List.head?_eq_some_iff.mp ?_
  unfold tuples
  rw [List.head?_take, if_neg (by omega), List.head?_eq_getElem?, Vector.getElem?_toList]
  rfl

end Request

/-! ## Moves -/

namespace Transfer

variable {β : Type} [Board β] {t : Transfer} {q : Request} {n : Nat}

theorem footprint_trust (ht : Reachable β .trust t) (direction : Direction) (q : Request)
    (hn : n ≤ Frame.slots) (b : β) :
    let r := t.run direction (q.tuples n) b
    let first := (q.payload.get 0).address
    let left := t.remaining direction first
    r.1.1.length = min n left ∧ (1 ≤ n → (r.1.2.activity = .idle ↔ left ≤ n)) ∧
      (1 ≤ n → direction = .read → t.activity.reading? = none →
        Setting.atAddress first = .unmapped → r.1.1 = [⟨first + 1, 0xFF⟩]) := by
  intro r first left
  have hlen := q.length_tuples hn
  rcases Nat.eq_zero_or_pos n with rfl | hpos
  · have hle := length_run_le t direction (q.tuples 0) b
    rw [hlen] at hle
    have hnone : ¬1 ≤ 0 := Nat.not_succ_le_zero 0
    refine ⟨?_, fun h => absurd h hnone, fun h => absurd h hnone⟩
    rw [Nat.zero_min]
    exact Nat.le_zero.mp hle
  · obtain ⟨xs, hxs⟩ := q.tuples_eq_cons hpos
    have hr : r = t.run direction (q.payload.get 0 :: xs) b := by rw [← hxs]
    obtain ⟨hcount, hidle⟩ := run_trust ht direction (q.payload.get 0) xs b
    rw [← hr, ← hxs, hlen] at hcount hidle
    refine ⟨hcount, fun _ => hidle, fun _ hd hnone hs => ?_⟩
    subst hd
    rw [hr]
    exact run_read_of_unmapped hnone hs xs b

theorem footprint_strict (ht : Reachable β .strict t) (direction : Direction) (q : Request)
    (hn : n ≤ Frame.slots) (b : β) :
    let r := t.run direction (q.tuples n) b
    let journal := t.record (.frame direction (q.tuples n)) b
    r.1.1 = replies journal.1.1 ∧ r.1.1.length ≤ n ∧
      ∃ answered dropped ignored,
        Parts direction (q.tuples n) journal.1.1 answered dropped ignored ∧
        t.StopsAfter direction (answered ++ dropped) ignored b ∧
        (dropped ≠ [] → r.1.2.activity = .idle) := by
  intro r journal
  have hr : r = ((replies journal.1.1, journal.1.2), journal.2) :=
    feed_apply t (.frame direction (q.tuples n)) b
  have hle : r.1.1.length ≤ n := q.length_tuples hn ▸ length_run_le t direction (q.tuples n) b
  obtain ⟨answered, dropped, ignored, hparts, hstops, hidle⟩ :=
    exists_parts ht direction (q.tuples n) b
  rw [hr] at hle ⊢
  exact ⟨rfl, hle, answered, dropped, ignored, hparts, hstops, hidle⟩

end Transfer

namespace Radio

/-! ## Replies -/

section Handle

variable {τ κ β : Type} [RegisterBank τ] [RegisterBank κ] [Board β] {q : Request}
  {direction : Direction}

theorem handle_of_nothing (h : q.control.direction? = none ∨ q.control.device = .reserved)
    (r : Radio τ κ β) : (handle q r).1 = [] := by
  unfold handle
  cases hd : q.control.direction? with
  | none => rfl
  | some d =>
    rw [h.resolve_left (hd ▸ Option.some_ne_none d)]
    rfl

theorem length_handle_of_chip
    (h : q.control.device = .transceiver ∨ q.control.device = .clockSynth)
    (hd : q.control.direction? = some direction) (r : Radio τ κ β) :
    (handle q r).1.length = 1 := by
  unfold handle
  rw [hd]
  rcases h with h | h <;>
  · rw [h]
    rfl

theorem handle_of_move (h : q.control.device = .config)
    (hd : q.control.direction? = some direction) (r : Radio τ κ β) :
    handle q r =
      let f := r.transfer.run direction (q.tuples q.control.count) r.board
      (f.1.1, { r with transfer := f.1.2, board := f.2 }) := by
  unfold handle
  rw [hd, h]
  rfl

theorem length_handle_le (q : Request) (r : Radio τ κ β) :
    (handle q r).1.length ≤ Frame.slots := by
  cases hd : q.control.direction? with
  | none =>
    rw [handle_of_nothing (.inl hd)]
    exact Nat.zero_le _
  | some d =>
    cases hdev : q.control.device with
    | reserved =>
      rw [handle_of_nothing (.inr hdev)]
      exact Nat.zero_le _
    | transceiver =>
      rw [length_handle_of_chip (.inl hdev) hd]
      decide
    | clockSynth =>
      rw [length_handle_of_chip (.inr hdev) hd]
      decide
    | config =>
      have hle := Transfer.length_run_le r.transfer d (q.tuples q.control.count) r.board
      rw [q.length_tuples (Nat.le_of_lt_succ q.control.count_lt)] at hle
      rw [handle_of_move hdev hd]
      exact hle.trans (Nat.le_of_lt_succ q.control.count_lt)

end Handle

/-! ## The footprint -/

section Footprint

variable {τ κ β : Type} [RegisterBank τ] [RegisterBank κ] [Board β]

/-- **The footprint of a request.** The replies to a request are at most seven. The response is the
preset one with the replies in its first slots, and they do not depend on it, as nothing that is
left behind does. There is no reply without a direction or a device, and one reply of a chip. For
the board,

* a reply to a write has no data;
* an engine that trusts the addresses answers as many tuples as are counted and as the transfer has
  bytes left, and ends with nothing under way if all that are left were counted;
* a strict engine deals with the tuples up to the first one that leaves nothing under way, and
  answers them, each at its address within the setting that it names, except for the last tuple of
  a write if it names none. -/
theorem footprint {policy : Policy} {r : Radio τ κ β}
    (hr : Transfer.Reachable β policy r.transfer) (q : Request) :
    let out := handle q r
    let n := q.control.count
    let first := (q.payload.get 0).address
    (out.1.length ≤ Frame.slots ∧ ∀ f : Frame,
      f.Overlaid (answer q (.ofFrame f) r).1.toFrame out.1 ∧
        (answer q (.ofFrame f) r).2 = out.2) ∧
    (q.control.direction? = none ∨ q.control.device = .reserved → out.1 = []) ∧
    ∀ d, q.control.direction? = some d →
      (q.control.device = .transceiver ∨ q.control.device = .clockSynth → out.1.length = 1) ∧
      (q.control.device = .config →
        (d = .write → ∀ x ∈ out.1, x.data = 0) ∧
        (policy = .trust →
          let left := r.transfer.remaining d first
          out.1.length = min n left ∧
          (1 ≤ n → (out.2.transfer.activity = .idle ↔ left ≤ n)) ∧
          (1 ≤ n → d = .read → r.transfer.activity.reading? = none →
            Setting.atAddress first = .unmapped → out.1 = [⟨first + 1, 0xFF⟩])) ∧
        (policy = .strict →
          let journal := r.transfer.record (.frame d (q.tuples n)) r.board
          out.1 = Transfer.replies journal.1.1 ∧ out.1.length ≤ n ∧
          ∃ answered dropped ignored,
            Transfer.Parts d (q.tuples n) journal.1.1 answered dropped ignored ∧
            r.transfer.StopsAfter d (answered ++ dropped) ignored r.board ∧
            (dropped ≠ [] → out.2.transfer.activity = .idle))) := by
  intro out n first
  refine ⟨⟨length_handle_le q r, fun f => ⟨?_, rfl⟩⟩, fun h => handle_of_nothing h r,
    fun d hd => ⟨fun h => length_handle_of_chip h hd r, fun h => ?_⟩⟩
  · exact Response.overlaid_fill (length_handle_le q r)
  · have hn : n ≤ Frame.slots := Nat.le_of_lt_succ q.control.count_lt
    have hout : out = _ := handle_of_move h hd r
    rw [hout]
    refine ⟨fun hw => ?_, fun hp => ?_, fun hp => ?_⟩
    · subst hw
      exact Transfer.data_of_write r.transfer (q.tuples n) r.board
    · subst hp
      exact Transfer.footprint_trust hr d q hn r.board
    · subst hp
      exact Transfer.footprint_strict hr d q hn r.board

end Footprint

/-- In the middle of a control word come five tuples. An engine that trusts the addresses takes the
two that are left; a strict one takes the first and drops the word at the second, which names no
setting. -/
theorem five_tuples_written :
    let r : Policy → Radio (Transceiver Spi.Chip) (ClockSynth I2c.Chip) (MemoryBoard Ticker) :=
      fun policy =>
        { transfer := ⟨policy, .writing ⟨.control, 2, 0x2211⟩⟩, transceiver := ⟨{}⟩,
          clock := .factory { address := 0x70 }, board := .boot ⟨0, 1⟩ }
    let q : Request :=
      .pack (.pack .write .config 5) [⟨2, 0x33⟩, ⟨50, 0x44⟩, ⟨4, 0⟩, ⟨5, 0⟩, ⟨6, 0⟩]
    let journal := (r .strict).transfer.record (.frame .write (q.tuples 5)) (r .strict).board
    (∀ policy, Transfer.Reachable (MemoryBoard Ticker) policy (r policy).transfer) ∧
    ((handle q (r .trust)).1.length = 2 ∧ (handle q (r .trust)).2.transfer.activity = .idle) ∧
    (handle q (r .strict)).1 = [⟨2, 0⟩] ∧
    ∃ answered dropped ignored,
      Transfer.Parts .write (q.tuples 5) journal.1.1 answered dropped ignored ∧
      (handle q (r .strict)).1.map Tuple.address = answered.map Tuple.relative := by
  intro r q journal
  have hr : ∀ policy, Transfer.Reachable (MemoryBoard Ticker) policy (r policy).transfer :=
    fun policy => ⟨[.frame .write [⟨0, 0x11⟩, ⟨1, 0x22⟩]], .boot ⟨0, 1⟩, by cases policy <;> decide⟩
  obtain ⟨-, -, htrust⟩ := footprint (hr .trust) q
  obtain ⟨-, -, hstrict⟩ := footprint (hr .strict) q
  obtain ⟨-, hmove⟩ := htrust .write (by decide)
  obtain ⟨-, hmove'⟩ := hstrict .write (by decide)
  obtain ⟨hcount, hidle, -⟩ := (hmove (by decide)).2.1 rfl
  obtain ⟨hreplies, -, answered, dropped, ignored, hparts, -⟩ := (hmove' (by decide)).2.2 rfl
  have hn : q.control.count = 5 := by decide
  rw [hn] at hreplies hparts
  refine ⟨hr, ⟨hcount.trans (by decide), (hidle (by decide)).mpr (by decide)⟩, by decide, answered,
    dropped, ignored, hparts, ?_⟩
  rw [hreplies]
  exact hparts.replies

end Radio

end RadioControl
