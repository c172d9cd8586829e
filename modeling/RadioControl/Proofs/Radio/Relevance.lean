import Mathlib
import RadioControl.Proofs.Radio.Devices
import RadioControl.Proofs.Transfer.Cut
import RadioControl.Register.File

/-!
# What of a request matters

A radio looks at few bytes of a request: at most the direction, the device and the count in the
control byte, the tuples that count, and the data of these only in a write. `Request.Alike` says
that two requests are the same as far as a radio looks at them, and `ControlByte.significant` has
the bits of a control byte that it looks at.

* `run_alike`: the transfer engine makes the same of tuples that are alike.
* `answer_congr`: so does a radio of requests that are alike.
* `answer_ignores` adds that within a request for the board nothing matters after the tuple with
  which the engine is done.
-/

namespace RadioControl

/-! ## The bits of a control byte -/

namespace ControlByte

/-- The bits of a control byte that matter: never bit 3, the write bit only without the read bit,
and the count only in a request for the board. -/
def significant (c : ControlByte) : UInt8 :=
  (if c.readBit then 0xB0 else 0xF0) ||| (if c.device = .config then 0x07 else 0)

theorem readBit_and (b : UInt8) : readBit ⟨b &&& 0x80⟩ = readBit ⟨b⟩ := by
  revert b
  exact forall_byte (by decide +kernel)

theorem writeBit_and (b : UInt8) : writeBit ⟨b &&& 0x40⟩ = writeBit ⟨b⟩ := by
  revert b
  exact forall_byte (by decide +kernel)

theorem device_and (b : UInt8) : device ⟨b &&& 0x30⟩ = device ⟨b⟩ := by
  revert b
  exact forall_byte (by decide +kernel)

theorem count_and (b : UInt8) : count ⟨b &&& 0x07⟩ = count ⟨b⟩ := by
  revert b
  exact forall_byte (by decide +kernel)

/-- Bytes that are equal under a mask are equal under each part of the mask. -/
theorem and_eq_of_mask {a b mask part : UInt8} (h : a &&& mask = b &&& mask)
    (hp : mask &&& part = part) : a &&& part = b &&& part := by
  rw [← hp, ← UInt8.and_assoc, h, UInt8.and_assoc]

variable {c c' : ControlByte}

theorem readBit_of_significant (h : c'.byte &&& c.significant = c.byte &&& c.significant) :
    c'.readBit = c.readBit := by
  have hp : c.significant &&& 0x80 = 0x80 := by
    unfold significant
    split <;> split <;> decide
  rw [← readBit_and c'.byte, ← readBit_and c.byte, and_eq_of_mask h hp]

theorem device_of_significant (h : c'.byte &&& c.significant = c.byte &&& c.significant) :
    c'.device = c.device := by
  have hp : c.significant &&& 0x30 = 0x30 := by
    unfold significant
    split <;> split <;> decide
  rw [← device_and c'.byte, ← device_and c.byte, and_eq_of_mask h hp]

theorem direction?_of_significant (h : c'.byte &&& c.significant = c.byte &&& c.significant) :
    c'.direction? = c.direction? := by
  unfold direction?
  rw [readBit_of_significant h]
  cases hr : c.readBit with
  | true => rfl
  | false =>
    have hp : c.significant &&& 0x40 = 0x40 := by
      unfold significant
      rw [hr, if_neg Bool.false_ne_true]
      split <;> decide
    rw [← writeBit_and c'.byte, ← writeBit_and c.byte, and_eq_of_mask h hp]

theorem count_of_significant (h : c'.byte &&& c.significant = c.byte &&& c.significant)
    (hd : c.device = .config) : c'.count = c.count := by
  have hp : c.significant &&& 0x07 = 0x07 := by
    unfold significant
    rw [if_pos hd]
    split <;> decide
  rw [← count_and c'.byte, ← count_and c.byte, and_eq_of_mask h hp]

end ControlByte

/-! ## Tuples -/

/-- Two tuples are the same in this direction: a read has no use for the data. -/
structure Tuple.Alike (direction : Direction) (t t' : Tuple) : Prop where
  address : t'.address = t.address
  data : direction = .write → t'.data = t.data

namespace Tuple.Alike

theorem refl (direction : Direction) (t : Tuple) : t.Alike direction t := ⟨rfl, fun _ => rfl⟩

theorem eq_of_write {t t' : Tuple} (h : t.Alike .write t') : t' = t := by
  obtain ⟨ha, hd⟩ := h
  cases t
  cases t'
  cases ha
  cases hd rfl
  rfl

end Tuple.Alike

namespace Transfer

variable {β : Type} [Board β] {policy : Policy} {ts ts' : List Tuple}

/-- A read looks at the addresses only. -/
theorem serve_alike (h : List.Forall₂ (Tuple.Alike .read) ts ts') (p? : Option Progress) (b : β) :
    serve policy p? ts' b = serve policy p? ts b := by
  induction h generalizing p? b with
  | nil => rfl
  | cons ht _ ih => simp only [serve_cons_apply, ht.address, ih]

theorem eq_of_forall₂_write (h : List.Forall₂ (Tuple.Alike .write) ts ts') : ts' = ts := by
  induction h with
  | nil => rfl
  | cons ht _ ih => rw [ht.eq_of_write, ih]

/-- The engine makes the same of tuples that are alike. -/
theorem run_alike {direction : Direction} (h : List.Forall₂ (Tuple.Alike direction) ts ts')
    (t : Transfer) (b : β) : t.run direction ts' b = t.run direction ts b := by
  cases direction with
  | read => rw [read_apply, read_apply, serve_alike h]
  | write => rw [eq_of_forall₂_write h]

end Transfer

/-! ## Requests -/

namespace Request

/-- How many tuples of a request matter. -/
def relevant (q : Request) : Nat :=
  match q.control.device with
  | .config => q.control.count
  | .transceiver | .clockSynth => 1
  | .reserved => 0

/-- Two requests are the same as far as a radio looks at them. -/
structure Alike (q q' : Request) : Prop where
  direction : q'.control.direction? = q.control.direction?
  device : q'.control.device = q.control.device
  count : q.control.device = .config → q'.control.count = q.control.count
  tuples : ∀ d, q.control.direction? = some d →
    List.Forall₂ (Tuple.Alike d) (q.tuples q.relevant) (q'.tuples q.relevant)

theorem tuples_one (q : Request) : q.tuples 1 = [q.payload.get 0] := by
  apply List.ext_getElem
  · simp [tuples]
  · intro i hi hi'
    have h0 : i = 0 := by simpa using hi'
    subst h0
    simp [tuples, Vector.get]

/-- A chip looks at the first tuple, and in a read only at its address. -/
theorem access_alike {ρ : Type} [RegisterBank ρ] {q q' : Request}
    (hd : q'.control.direction? = q.control.direction?)
    (ht : ∀ d, q.control.direction? = some d →
      List.Forall₂ (Tuple.Alike d) (q.tuples 1) (q'.tuples 1)) :
    (q'.access : StateM ρ (List Tuple)) = q.access := by
  unfold access
  rw [hd]
  cases hdir : q.control.direction? with
  | none => rfl
  | some d =>
    have hfirst := ht d hdir
    rw [tuples_one, tuples_one, List.forall₂_cons] at hfirst
    cases d with
    | read => simp only [RegisterBank.serve, hfirst.1.address]
    | write => rw [hfirst.1.eq_of_write]

end Request

namespace Radio

variable {τ κ β : Type} [RegisterBank τ] [RegisterBank κ] [Board β] {q q' : Request}

/-- **A radio makes the same of requests that are alike.** -/
theorem answer_congr (h : q.Alike q') (preset : Response) (r : Radio τ κ β) :
    answer q' preset r = answer q preset r := by
  have ht := h.tuples
  unfold Request.relevant at ht
  cases hdev : q.control.device with
  | config =>
    have hdev' := h.device.trans hdev
    simp only [hdev] at ht
    cases hdir : q.control.direction? with
    | none => rw [answer_of_undirected hdir, answer_of_undirected (h.direction.trans hdir)]
    | some d =>
      rw [answer_of_move hdev hdir, answer_of_move hdev' (h.direction.trans hdir), h.count hdev,
        Transfer.run_alike (ht d hdir)]
  | transceiver =>
    simp only [hdev] at ht
    rw [answer_of_transceiver hdev, answer_of_transceiver (h.device.trans hdev),
      Request.access_alike h.direction ht]
  | clockSynth =>
    simp only [hdev] at ht
    rw [answer_of_clock hdev, answer_of_clock (h.device.trans hdev),
      Request.access_alike h.direction ht]
  | reserved => rw [answer_of_reserved hdev, answer_of_reserved (h.device.trans hdev)]

/-- The tuples after the first `j` are ignored if these leave nothing under way. -/
theorem answer_of_done {d : Direction} {j : Nat} (hd : q.control.device = .config)
    (hdir : q.control.direction? = some d) (hj : 1 ≤ j) (hn : j ≤ q.control.count)
    (preset : Response) (r : Radio τ κ β)
    (hdone : (r.transfer.run d (q.tuples j) r.board).1.2.activity = .idle) :
    answer q preset r =
      let f := r.transfer.run d (q.tuples j) r.board
      (preset.fill f.1.1, { r with transfer := f.1.2, board := f.2 }) := by
  have hsplit : q.tuples q.control.count = q.tuples j ++ (q.tuples q.control.count).drop j := by
    have ht : (q.tuples q.control.count).take j = q.tuples j := by
      unfold Request.tuples
      rw [List.take_take, Nat.min_eq_left hn]
    rw [← ht, List.take_append_drop]
  have hne : q.tuples j ≠ [] := by
    have hlen := q.length_tuples (hn.trans (Nat.le_of_lt_succ q.control.count_lt))
    intro h0
    rw [h0] at hlen
    exact absurd hlen (Nat.ne_of_lt hj)
  rw [answer_of_move hd hdir, hsplit, Transfer.run_append_of_idle hne hdone]

/-- **What a radio ignores.** Whatever is under way, on any devices and for any preset response,

* requests that are alike get the same response, and leave the same radio, with all its devices;
* so do two requests for the board, if nothing is under way after their first `j` tuples, these are
  alike and both count at least so many: with the last of them a setting is finished or none begun,
  and what comes after it is ignored, the exact count included;
* so do requests that differ in the spare byte and in bits of the control byte that do not matter.
-/
theorem answer_ignores (r : Radio τ κ β) (preset : Response) :
    (∀ q q' : Request, q.Alike q' → answer q' preset r = answer q preset r) ∧
    (∀ (q q' : Request) (d : Direction) (j : Nat),
      (q.control.device = .config ∧ q'.control.device = .config) →
      (q.control.direction? = some d ∧ q'.control.direction? = some d) →
      (1 ≤ j ∧ j ≤ q.control.count ∧ j ≤ q'.control.count) →
      (r.transfer.run d (q.tuples j) r.board).1.2.activity = .idle →
      List.Forall₂ (Tuple.Alike d) (q.tuples j) (q'.tuples j) →
      answer q' preset r = answer q preset r) ∧
    (∀ (q : Request) (c : ControlByte) (spare : UInt8),
      c.byte &&& q.control.significant = q.control.byte &&& q.control.significant →
      answer { q with control := c, spare } preset r = answer q preset r) := by
  refine ⟨fun q q' h => answer_congr h preset r, ?_, fun q c spare h => ?_⟩
  · rintro q q' d j ⟨hdev, hdev'⟩ ⟨hdir, hdir'⟩ ⟨hj, hn, hn'⟩ hdone halike
    have hrun := Transfer.run_alike halike r.transfer r.board
    have hdone' : (r.transfer.run d (q'.tuples j) r.board).1.2.activity = .idle := hrun ▸ hdone
    rw [answer_of_done hdev hdir hj hn preset r hdone,
      answer_of_done hdev' hdir' hj hn' preset r hdone', hrun]
  · have halike : q.Alike { q with control := c, spare } :=
      ⟨ControlByte.direction?_of_significant h, ControlByte.device_of_significant h,
        ControlByte.count_of_significant h,
        fun d _ => List.forall₂_same.mpr fun t _ => Tuple.Alike.refl d t⟩
    exact answer_congr halike preset r

/-- A read of the trim, which is done after two tuples: the write bit, bit 3, the spare byte, the
data and all of the third tuple are ignored, and so is how many tuples count. -/
theorem trim_read_ignores :
    let r : Radio (RegisterFile 256) (RegisterFile 256) (Traced (MemoryBoard Ticker) Board.Call) :=
      { transceiver := .zero, clock := .zero, board := ⟨.boot ⟨0, 1⟩, []⟩ }
    let q : Request := ⟨⟨0x83⟩, 0, Payload.zero.overlay [⟨34, 0⟩, ⟨35, 0⟩, ⟨0, 0⟩]⟩
    let q' : Request := ⟨⟨0xCF⟩, 0xEE, Payload.zero.overlay [⟨34, 1⟩, ⟨35, 2⟩, ⟨44, 3⟩]⟩
    (r.transfer.run .read (q.tuples 2) r.board).1.2.activity = .idle ∧
    List.Forall₂ (Tuple.Alike .read) (q.tuples 2) (q'.tuples 2) ∧
    answer q' .zero r = answer q .zero r := by
  intro r q q'
  have hdone : (r.transfer.run .read (q.tuples 2) r.board).1.2.activity = .idle := by decide
  have halike : List.Forall₂ (Tuple.Alike .read) (q.tuples 2) (q'.tuples 2) :=
    .cons ⟨rfl, nofun⟩ (.cons ⟨rfl, nofun⟩ .nil)
  refine ⟨hdone, halike, (answer_ignores r .zero).2.1 q q' .read 2 ?_ ?_ ?_ hdone halike⟩
  · exact ⟨by decide, by decide⟩
  · exact ⟨by decide, by decide⟩
  · exact ⟨by decide, by decide, by decide⟩

end Radio

end RadioControl
