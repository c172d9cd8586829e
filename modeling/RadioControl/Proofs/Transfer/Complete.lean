import Mathlib
import RadioControl.Board.Memory
import RadioControl.Proofs.Frame.Response
import RadioControl.Proofs.Transfer.Cut
import RadioControl.Proofs.Transfer.Partway
import RadioControl.Proofs.Transfer.Steps

/-!
# Whole transfers

A host sends the tuples of a whole setting in frames that it cuts as it likes, with frames without a
tuple among them, and the board changes by itself in between (`Delivery`, `Complete`).

Between frames the engine is `Midway` through the setting. Until the last tuple of a write it only
collects, and after the first tuple of a read it only hands out: such frames touch nothing
(`Quiet`), and any number of them is dealt with by one induction (`delivers_quietly`). What is left
is one frame of each transfer (`Midway.completes`, `Midway.begins`), and so

* `write_applied_once`: the frame with the last tuple of a write stores the number that the bytes
  make, and no other touches the board.
* `read_is_snapshot`: the frame with the first tuple of a read fetches the value whose bytes all the
  frames answer, and no other touches the board.
-/

namespace RadioControl

/-! ## What a write orders -/

/-- The calls of the board that a write of the number `n` to the setting makes: one order, with as
many low bits as the setting has room for. A timestamp is reset whatever the number, and the
firmware version cannot be written. -/
def Setting.orders (n : Nat) : Setting → List Board.Call
  | .control => [.ordered (.setControl (UInt32.ofNat n))]
  | .correction path term => [.ordered (.setCorrection path term (Int16.ofNat n))]
  | .timestamp path => [.ordered (.resetTimestamp path)]
  | .trim => [.ordered (.setTrim (UInt16.ofNat n))]
  | .synthWord => [.ordered (.sendSynthWord (UInt32.ofNat n))]
  | .expansion => [.ordered (.setExpansion (UInt32.ofNat n))]
  | .expansionDirection => [.ordered (.setExpansionDirection (UInt32.ofNat n))]
  | .firmware | .unmapped => []

section Trace

variable {β : Type} [Board β]

theorem Setting.trace_store (s : Setting) (v : UInt64) (b : Traced β Board.Call) :
    (s.store v b).2.trace = b.trace ++ s.orders v.toNat := by
  cases s with
  | firmware | unmapped => exact (List.append_nil _).symm
  | _ => rfl

/-- A read gives no order. -/
theorem Setting.trace_fetch (s : Setting) (b : Traced β Board.Call) :
    ∃ asked, (s.fetch b).2.trace = b.trace ++ asked ∧
      ∀ c ∈ asked, ∃ q a, c = Board.Call.asked q a := by
  have hask : ∀ (q : Board.Query) (a : q.Answer), ∀ c ∈ [Board.Call.asked q a],
      ∃ q a, c = Board.Call.asked q a := fun q a c hc => ⟨q, a, List.mem_singleton.mp hc⟩
  cases s with
  | trim | synthWord | unmapped => exact ⟨[], (List.append_nil _).symm, fun _ hc => nomatch hc⟩
  | _ => exact ⟨_, rfl, hask _ _⟩

end Trace

namespace Transfer

/-! ## Frames on their way -/

/-- A frame on its way to an engine: the first `count` tuples of a request count, and the response
begins as `preset`. The board changes by itself before the frame is there. -/
structure Delivery (β : Type) where
  count : Nat
  request : Request
  preset : Response
  drift : β → β := id

namespace Delivery

variable {β : Type}

def tuples (d : Delivery β) : List Tuple := d.request.tuples d.count

/-- What a run of the engine has of it. -/
def inputs (direction : Direction) (d : Delivery β) : List (Input (Traced β Board.Call)) :=
  [.drift (Traced.update d.drift), .frame direction d.tuples]

/-- The frame has tuples from number `k` of a transfer on, and the response answers them as far as
the transfer has `width` tuples. The other slots keep what they held. -/
structure Answers (reply : Nat → Tuple → Tuple) (width k : Nat) (d : Delivery β) (r : Response) :
    Prop where
  head : r.head = d.preset.head
  served : ∀ {j t}, d.tuples[j]? = some t → k + j < width → r.tuple? j = some (reply (k + j) t)
  kept : ∀ {j}, d.tuples.length ≤ j ∨ width ≤ k + j → r.tuple? j = d.preset.tuple? j

theorem length_tuples_le (d : Delivery β) : d.tuples.length ≤ Frame.slots := by
  unfold tuples Request.tuples Frame.slots
  simp

theorem answers_fill (s : Setting) (bytes : Nat → UInt8) (k : Nat) (d : Delivery β) :
    d.Answers (s.reply bytes) s.width.toNat k
      (d.preset.fill (s.replies bytes k (d.tuples.take (s.width.toNat - k)))) where
  head := rfl
  served {j t} ht hk := by
    have hj : j < 7 :=
      Nat.lt_of_lt_of_le (List.getElem?_eq_some_iff.mp ht).1 d.length_tuples_le
    rw [Response.tuple?_fill _ _ _ hj, Setting.getElem?_replies,
      List.getElem?_take_of_lt (by omega), ht]
    rfl
  kept {j} hj := by
    refine Response.tuple?_fill_of_le ?_
    rw [Setting.length_replies, List.length_take]
    omega

/-- There is one response that answers a frame. -/
theorem Answers.unique {reply : Nat → Tuple → Tuple} {width k : Nat} {d : Delivery β}
    {r r' : Response} (h : d.Answers reply width k r) (h' : d.Answers reply width k r') :
    r = r' := by
  refine Response.ext_tuple? (h.head.trans h'.head.symm) fun j => ?_
  by_cases hj : j < d.tuples.length ∧ k + j < width
  · have ht := List.getElem?_eq_getElem hj.1
    rw [h.served ht hj.2, h'.served ht hj.2]
  · have hkept : d.tuples.length ≤ j ∨ width ≤ k + j := by omega
    rw [h.kept hkept, h'.kept hkept]

end Delivery

section Frames

variable {β : Type}

/-- The tuples of the frames, one after another. -/
def allTuples (ds : List (Delivery β)) : List Tuple := ds.flatMap Delivery.tuples

/-- The board with the changes that it makes by itself before these frames. -/
def drifted : List (Delivery β) → Traced β Board.Call → Traced β Board.Call
  | [], b => b
  | d :: ds, b => drifted ds (b.update d.drift)

/-- The responses answer the tuples of the frames, the first of which is number `k` of the
transfer. -/
inductive Answered (reply : Nat → Tuple → Tuple) (width : Nat) :
    Nat → List (Delivery β) → List Response → Prop
  | nil (k : Nat) : Answered reply width k [] []
  | cons {k : Nat} {d : Delivery β} {r : Response} {ds : List (Delivery β)} {rs : List Response} :
      d.Answers reply width k r → Answered reply width (k + d.tuples.length) ds rs →
      Answered reply width k (d :: ds) (r :: rs)

theorem allTuples_cons (d : Delivery β) (ds : List (Delivery β)) :
    allTuples (d :: ds) = d.tuples ++ allTuples ds := List.flatMap_cons

theorem allTuples_append (ds ds' : List (Delivery β)) :
    allTuples (ds ++ ds') = allTuples ds ++ allTuples ds' := List.flatMap_append

@[simp] theorem trace_drifted (ds : List (Delivery β)) (b : Traced β Board.Call) :
    (drifted ds b).trace = b.trace := by
  induction ds generalizing b with
  | nil => rfl
  | cons d ds ih => exact ih (b.update d.drift)

theorem Answered.append {reply : Nat → Tuple → Tuple} {width k k' : Nat}
    {ds ds' : List (Delivery β)} {rs rs' : List Response} (h : Answered reply width k ds rs)
    (hk : k + (allTuples ds).length = k') (h' : Answered reply width k' ds' rs') :
    Answered reply width k (ds ++ ds') (rs ++ rs') := by
  induction h with
  | nil k =>
    obtain rfl : k = k' := hk
    exact h'
  | cons ha _ ih =>
    rw [allTuples_cons, List.length_append, ← Nat.add_assoc] at hk
    exact .cons ha (ih hk)

end Frames

/-! ## Runs of frames -/

section Runs

variable {β : Type} [Board β]

/-- The response to a frame, and the engine after it. -/
def deliver (t : Transfer) (direction : Direction) (d : Delivery β) :
    StateM (Traced β Board.Call) (Response × Transfer) := do
  modify (Traced.update d.drift)
  t.call direction d.count d.request d.preset

/-- The responses to frames in one direction, and the engine after them. -/
def deliverAll (t : Transfer) (direction : Direction) :
    List (Delivery β) → StateM (Traced β Board.Call) (List Response × Transfer)
  | [] => pure ([], t)
  | d :: ds => do
    let (r, t') ← t.deliver direction d
    let (rs, t'') ← t'.deliverAll direction ds
    return (r :: rs, t'')

/-- The frames have these responses and these accesses to the board, and they leave the engine and
the board so. -/
structure Delivers (t : Transfer) (direction : Direction) (ds : List (Delivery β))
    (b : Traced β Board.Call) (rs : List Response) (touched : List Event) (t' : Transfer)
    (b' : Traced β Board.Call) : Prop where
  run : t.deliverAll direction ds b = ((rs, t'), b')
  touches : accesses (t.recordAll (ds.flatMap (Delivery.inputs direction)) b).1.1.flatten = touched

namespace Delivers

variable {t t' t'' : Transfer} {direction : Direction} {d : Delivery β} {ds : List (Delivery β)}
  {b b' b'' : Traced β Board.Call} {es : List Event} {rs : List Response} {touched : List Event}

theorem nil (t : Transfer) (direction : Direction) (b : Traced β Board.Call) :
    t.Delivers direction [] b [] [] t b := ⟨rfl, rfl⟩

theorem cons (h : t.record (.frame direction d.tuples) (b.update d.drift) = ((es, t'), b'))
    (h' : t'.Delivers direction ds b' rs touched t'' b'') :
    t.Delivers direction (d :: ds) b (d.preset.fill (replies es) :: rs) (accesses es ++ touched)
      t'' b'' := by
  have hrun : t.run direction d.tuples (b.update d.drift) = ((replies es, t'), b') := by
    have hf := feed_apply t (.frame direction d.tuples) (b.update d.drift)
    rwa [h] at hf
  have hd : t.deliver direction d b = ((d.preset.fill (replies es), t'), b') := by
    show t.call direction d.count d.request d.preset (b.update d.drift) = _
    rw [call_apply, show d.request.tuples d.count = d.tuples from rfl, hrun]
  constructor
  · rw [deliverAll, bind_apply, hd]
    simp only [bind_apply, h'.run]
    rfl
  · have hj : (t.recordAll ((d :: ds).flatMap (Delivery.inputs direction)) b).1.1 =
        [.drifted] :: es :: (t'.recordAll (ds.flatMap (Delivery.inputs direction)) b').1.1 := by
      rw [List.flatMap_cons]
      show [.drifted] :: (t.recordAll (.frame direction d.tuples :: _) (b.update d.drift)).1.1 = _
      rw [recordAll_cons_apply, h]
      rfl
    rw [hj, List.flatten_cons, List.flatten_cons, accesses_append, accesses_append, h'.touches]
    rfl

end Delivers

end Runs

/-! ## Frames that touch nothing -/

/-- What an engine with this policy has of a transfer of the setting after `k` tuples, and the value
that goes with it. -/
structure Midway (policy : Policy) (direction : Direction) (s : Setting) (k : Nat) (v : UInt64)
    (t : Transfer) : Prop where
  policy_eq : t.policy = policy
  held_of_lt : k < s.width.toNat → t.activity.inDirection direction = Progress.held s k v
  idle_of_le : s.width.toNat ≤ k → t.activity = .idle

/-- With any board, the engine has these replies to a frame and does not touch the board. -/
def Quiet (β : Type) [Board β] (t : Transfer) (direction : Direction) (ts rs : List Tuple)
    (t' : Transfer) : Prop :=
  ∀ b : Traced β Board.Call, ∃ es, t.record (.frame direction ts) b = ((es, t'), b) ∧
    replies es = rs ∧ accesses es = []

/-- A frame in the middle of a transfer, after `k` tuples of it: it has the tuples that come next,
and neither the first one of a read nor the last one of a write. -/
def Between (policy : Policy) (direction : Direction) (s : Setting) (k : Nat) (ts : List Tuple) :
    Prop :=
  s.AcceptsAll policy k ts ∧ (ts ≠ [] →
    match direction with
    | .read => 0 < k ∧ k < s.width.toNat
    | .write => k + ts.length < s.width.toNat)

section Quiet

variable {β : Type} [Board β] {policy : Policy} {direction : Direction} {s : Setting} {k : Nat}
  {v : UInt64} {t : Transfer} {ts : List Tuple}

/-- A frame without a tuple leaves what is under way in its direction. -/
theorem record_frame_nil
    (ht : ∀ p, t.activity.inDirection direction = some p → ¬p.Finished) (b : Traced β Board.Call) :
    let a := Activity.ofDirection direction (t.activity.inDirection direction)
    t.record (.frame direction []) b =
      (([.arrived direction, .handled a], { t with activity := a }), b) := by
  cases direction with
  | read => rfl
  | write =>
    rw [record_write_apply]
    cases hp : t.activity.writing? with
    | none =>
      simp only [recordCollect, recordSettle, pure_apply, Activity.inDirection, hp]
      rfl
    | some p =>
      simp only [recordCollect, recordSettle_of_not_finished (ht p hp), Activity.inDirection, hp]
      rfl

namespace Midway

theorem eq_reset (h : Midway policy direction s k v t) (hk : s.width.toNat ≤ k)
    {q : Transfer} (hq : q.policy = policy) : t = q.reset := by
  have hp := h.policy_eq.trans hq.symm
  have ha := h.idle_of_le hk
  cases t
  cases hp
  cases ha
  rfl

theorem not_finished (h : Midway policy direction s k v t) {p : Progress}
    (hp : t.activity.inDirection direction = some p) : ¬p.Finished := by
  rcases Nat.lt_or_ge k s.width.toNat with hk | hk
  · rw [h.held_of_lt hk] at hp
    cases k with
    | zero => cases hp
    | succ k =>
      cases hp
      have h8 := s.width_le_eight
      exact mt (Progress.finished_upTo (by omega)).mp (Nat.not_le.mpr hk)
  · rw [h.idle_of_le hk] at hp
    cases direction <;> cases hp

/-- A frame without a tuple. -/
theorem quiet_nil (h : Midway policy direction s k v t) :
    ∃ t', Quiet β t direction [] [] t' ∧ Midway policy direction s k v t' := by
  let a := Activity.ofDirection direction (t.activity.inDirection direction)
  refine ⟨{ t with activity := a }, fun b => ?_, h.policy_eq, fun hk => ?_, fun hk => ?_⟩
  · exact ⟨_, record_frame_nil (fun p hp => h.not_finished hp) b, rfl, rfl⟩
  · rw [Activity.inDirection_ofDirection, if_pos rfl, h.held_of_lt hk]
  · show Activity.ofDirection direction (t.activity.inDirection direction) = .idle
    rw [h.idle_of_le hk]
    cases direction <;> rfl

/-- What a read has left after `k` tuples. -/
theorem of_read (ht : t.policy = policy) (hk : 0 < k) :
    Midway policy .read s k v
      { t with activity := .ofRead (if k < s.width.toNat then some (.upTo s k v) else none) } := by
  refine ⟨ht, fun hlt => ?_, fun hle => ?_⟩
  · rw [if_pos hlt, Progress.held_of_pos hk]
    rfl
  · rw [if_neg (Nat.not_lt.mpr hle)]
    rfl

/-- A frame of a read that is under way. -/
theorem quiet_read {done : List Tuple} (h : Midway policy .read s done.length v t)
    (ha : Between policy .read s done.length ts) :
    ∃ t', Quiet β t .read ts
        (s.replies (LittleEndian.digit v.toNat) done.length
          (ts.take (s.width.toNat - done.length))) t' ∧
      Midway policy .read s (done ++ ts).length v t' := by
  cases ts with
  | nil =>
    rw [List.take_nil, List.append_nil]
    exact h.quiet_nil
  | cons x xs =>
    obtain ⟨h0, hw⟩ := ha.2 (List.cons_ne_nil x xs)
    have hheld : t.activity.reading? = some (.upTo s done.length v) :=
      (h.held_of_lt hw).trans (Progress.held_of_pos h0)
    obtain ⟨rfl⟩ := h.policy_eq
    rw [List.length_append, List.length_cons, Nat.add_comm xs.length, ← Nat.add_assoc]
    refine ⟨_, fun b => ?_, of_read rfl (by omega)⟩
    obtain ⟨es, hrec, hre, hac⟩ :=
      record_read_upTo (hheld ▸ recordOpen_upTo h0 (ha.1.head hw) b) hw ha.1.tail
    exact ⟨_, hrec, hre, hac⟩

/-- A frame of a write that does not have the last tuple. -/
theorem quiet_write {done : List Tuple}
    (h : Midway policy .write s done.length (LittleEndian.word (done.map Tuple.data)) t)
    (ha : Between policy .write s done.length ts) :
    ∃ t', Quiet β t .write ts
        (s.replies (fun _ => 0) done.length (ts.take (s.width.toNat - done.length))) t' ∧
      Midway policy .write s (done ++ ts).length
        (LittleEndian.word ((done ++ ts).map Tuple.data)) t' := by
  cases ts with
  | nil =>
    rw [List.take_nil, List.append_nil]
    exact h.quiet_nil
  | cons x xs =>
    have hw : done.length + (x :: xs).length < s.width.toNat := ha.2 (List.cons_ne_nil x xs)
    replace ha := ha.1
    have h8 := s.width_le_eight
    obtain ⟨rfl⟩ := h.policy_eq
    let bs := done.map Tuple.data
    have hbs : bs.length = done.length := List.length_map _
    have hheld := h.held_of_lt (by omega)
    rw [← hbs] at hheld ha hw ⊢
    rw [List.length_append, List.map_append, ← hbs]
    have htake : (x :: xs).take (s.width.toNat - bs.length) = x :: xs :=
      List.take_of_length_le (by omega)
    have hc := collect_upTo (hheld ▸ openWrite_held (ha.head (by omega))) (by omega) ha.tail
    rw [htake] at hc ⊢
    let left := Progress.upTo s (bs.length + (x :: xs).length)
      (LittleEndian.word (bs ++ (x :: xs).map Tuple.data))
    have hopen : ¬left.Finished := mt (Progress.finished_upTo (by omega)).mp (Nat.not_le.mpr hw)
    refine ⟨{ t with activity := .writing left }, fun b => ?_, rfl, fun _ => ?_, fun hle => ?_⟩
    · obtain ⟨es, hrec, hre, hac⟩ := record_write_of_collect hc b
      rw [recordSettle_of_not_finished hopen] at hrec hac
      exact ⟨es, hrec, hre, hac⟩
    · exact (Progress.held_of_pos (by simp)).symm
    · exact absurd hle (Nat.not_le.mpr hw)

/-- The frame with the last tuple of a write. -/
theorem completes {done : List Tuple}
    (h : Midway policy .write s done.length (LittleEndian.word (done.map Tuple.data)) t)
    (ha : s.AcceptsAll policy done.length ts) (hlt : done.length < s.width.toNat)
    (hle : s.width.toNat ≤ done.length + ts.length) (b : Traced β Board.Call) :
    let v := LittleEndian.word (((done ++ ts).take s.width.toNat).map Tuple.data)
    ∃ es, t.record (.frame .write ts) b = ((es, t.reset), (s.store v b).2) ∧
      replies es = s.replies (fun _ => 0) done.length (ts.take (s.width.toNat - done.length)) ∧
      accesses es = [.stored s v] := by
  intro v
  have h8 := s.width_le_eight
  obtain ⟨rfl⟩ := h.policy_eq
  cases ts with
  | nil => exact absurd hle (Nat.not_le.mpr hlt)
  | cons x xs =>
    let bs := done.map Tuple.data
    have hbs : bs.length = done.length := List.length_map _
    have hheld := h.held_of_lt hlt
    have hv : v = LittleEndian.word
        (bs ++ ((x :: xs).take (s.width.toNat - done.length)).map Tuple.data) := by
      show LittleEndian.word (((done ++ (x :: xs)).take s.width.toNat).map Tuple.data) = _
      rw [List.take_append, List.take_of_length_le (Nat.le_of_lt hlt), List.map_append]
    rw [← hbs] at hheld ha hlt hv ⊢
    have hc := collect_upTo (hheld ▸ openWrite_held (ha.head hlt)) hlt ha.tail
    have htake : bs.length + ((x :: xs).take (s.width.toNat - bs.length)).length =
        s.width.toNat := by
      rw [List.length_take]
      omega
    dsimp only at hc
    rw [htake, ← hv] at hc
    have hf : (Progress.upTo s s.width.toNat v).Finished :=
      (Progress.finished_upTo h8).mpr (Nat.le_refl _)
    obtain ⟨es, hrec, hre, hac⟩ := record_write_of_collect hc b
    rw [recordSettle_of_finished hf] at hrec hac
    exact ⟨es, hrec, hre, hac⟩

/-- The frame with the first tuple of a read. -/
theorem begins {v₀ : UInt64} {x : Tuple} {xs : List Tuple} (h : Midway policy .read s 0 v₀ t)
    (hw : 0 < s.width.toNat) (ha : s.AcceptsAll policy 0 (x :: xs)) (b : Traced β Board.Call) :
    let v := (s.fetch b).1
    ∃ es t', t.record (.frame .read (x :: xs)) b =
        ((.arrived .read :: .fetched s v :: .moved .read (.start s v) x :: es, t'),
          (s.fetch b).2) ∧
      replies (.arrived .read :: .fetched s v :: .moved .read (.start s v) x :: es) =
        s.replies (LittleEndian.digit v.toNat) 0 ((x :: xs).take s.width.toNat) ∧
      accesses (.arrived .read :: .fetched s v :: .moved .read (.start s v) x :: es) =
        [.fetched s v] ∧
      Midway policy .read s (x :: xs).length v t' := by
  intro v
  have hidle : t.activity.reading? = none := h.held_of_lt hw
  obtain ⟨rfl⟩ := h.policy_eq
  obtain ⟨es, hrec, hre, hac⟩ :=
    record_read_upTo (hidle ▸ recordOpen_none (ha.head hw) b) hw ha.tail
  rw [List.length_cons, Nat.add_comm]
  rw [Nat.zero_add] at hrec
  exact ⟨_, _, hrec, hre, hac, of_read rfl (by omega)⟩

end Midway

/-- Frames that touch nothing, one after another. The tuples that are done tell the value that the
engine has. -/
theorem delivers_quietly {bytes : Nat → UInt8} (value : List Tuple → UInt64)
    (hstep : ∀ {done ts t}, Midway policy direction s done.length (value done) t →
      Between policy direction s done.length ts → ∃ t',
      Quiet β t direction ts
        (s.replies bytes done.length (ts.take (s.width.toNat - done.length))) t' ∧
      Midway policy direction s (done ++ ts).length (value (done ++ ts)) t')
    {ds : List (Delivery β)} {done : List Tuple}
    (h : Midway policy direction s done.length (value done) t)
    (hfits : ∀ before d after, ds = before ++ d :: after →
      Between policy direction s (done ++ allTuples before).length d.tuples)
    (b : Traced β Board.Call) :
    ∃ rs t', t.Delivers direction ds b rs [] t' (drifted ds b) ∧
      Midway policy direction s (done ++ allTuples ds).length (value (done ++ allTuples ds)) t' ∧
      Answered (s.reply bytes) s.width.toNat done.length ds rs := by
  induction ds generalizing done t b with
  | nil => exact ⟨[], t, .nil t direction b, (List.append_nil done).symm ▸ h, .nil _⟩
  | cons d ds ih =>
    obtain ⟨q, hquiet, hstage⟩ := hstep h (List.append_nil done ▸ hfits [] d ds rfl)
    obtain ⟨es, hrec, hre, hac⟩ := hquiet (b.update d.drift)
    obtain ⟨rs, t', hd, hlast, hans⟩ := ih hstage
      (fun before d' after hds => by
        have hf := hfits (d :: before) d' after (congrArg _ hds)
        rwa [allTuples_cons, ← List.append_assoc] at hf) (b.update d.drift)
    have hcons := Delivers.cons hrec hd
    rw [hac, hre] at hcons
    rw [List.append_assoc, ← allTuples_cons] at hlast
    rw [List.length_append] at hans
    exact ⟨_, t', hcons, hlast, .cons (d.answers_fill s bytes done.length) hans⟩

/-- Frames of a read that is under way, or that has not begun and does not. -/
theorem delivers_read {done : List Tuple} (h : Midway policy .read s done.length v t)
    {ds : List (Delivery β)}
    (hfits : ∀ before d after, ds = before ++ d :: after →
      Between policy .read s (done ++ allTuples before).length d.tuples)
    (b : Traced β Board.Call) :
    ∃ rs t', t.Delivers .read ds b rs [] t' (drifted ds b) ∧
      Midway policy .read s (done ++ allTuples ds).length v t' ∧
      Answered (s.reply (LittleEndian.digit v.toNat)) s.width.toNat done.length ds rs :=
  delivers_quietly (fun _ => v) (fun hm hb => hm.quiet_read hb) h hfits b

/-- Frames of a write that do not have its last tuple. -/
theorem delivers_write {done : List Tuple}
    (h : Midway policy .write s done.length (LittleEndian.word (done.map Tuple.data)) t)
    {ds : List (Delivery β)}
    (hfits : ∀ before d after, ds = before ++ d :: after →
      Between policy .write s (done ++ allTuples before).length d.tuples)
    (b : Traced β Board.Call) :
    ∃ rs t', t.Delivers .write ds b rs [] t' (drifted ds b) ∧
      Midway policy .write s (done ++ allTuples ds).length
        (LittleEndian.word ((done ++ allTuples ds).map Tuple.data)) t' ∧
      Answered (s.reply fun _ => 0) s.width.toNat done.length ds rs :=
  delivers_quietly (fun done => LittleEndian.word (done.map Tuple.data))
    (fun hm hb => hm.quiet_write hb) h hfits b

end Quiet

/-! ## Whole settings -/

section Complete

variable {β : Type}

/-- Frames with the tuples of the setting, as many as it has bytes or more. A tuple too many is in
the frame with the last of the bytes. -/
structure Complete (policy : Policy) (s : Setting) (ds : List (Delivery β)) : Prop where
  enough : s.width.toNat ≤ (allTuples ds).length
  accepted : s.AcceptsAll policy 0 (allTuples ds)
  surplus : ∀ before d after, ds = before ++ d :: after →
    s.width.toNat ≤ (allTuples before).length → d.tuples = []

/-- The frame with tuple number `n`, counted from one. -/
theorem exists_frame {ds : List (Delivery β)} {n : Nat} (h0 : 0 < n)
    (hn : n ≤ (allTuples ds).length) :
    ∃ before d after, ds = before ++ d :: after ∧ (allTuples before).length < n ∧
      n ≤ (allTuples before).length + d.tuples.length := by
  induction ds generalizing n with
  | nil => exact absurd hn (Nat.not_le.mpr h0)
  | cons d ds ih =>
    by_cases hd : n ≤ d.tuples.length
    · exact ⟨[], d, ds, rfl, h0, by rwa [Nat.add_comm]⟩
    · rw [allTuples_cons, List.length_append] at hn
      have hrest : n - d.tuples.length ≤ (allTuples ds).length := by omega
      obtain ⟨before, d', after, rfl, hlt, hle⟩ := ih (by omega) hrest
      refine ⟨d :: before, d', after, rfl, ?_, ?_⟩ <;>
      · rw [allTuples_cons, List.length_append]
        omega

namespace Complete

variable {policy : Policy} {s : Setting} {before after before' after' : List (Delivery β)}
  {m d : Delivery β}

theorem accepts (h : Complete policy s (before ++ m :: after)) :
    s.AcceptsAll policy (allTuples before).length m.tuples := by
  have ha := h.accepted
  rw [allTuples_append, allTuples_cons] at ha
  exact Nat.zero_add (allTuples before).length ▸ ha.right.left

theorem accepts_after (h : Complete policy s (before ++ m :: after))
    (hd : after = before' ++ d :: after') :
    let k := (allTuples before ++ m.tuples ++ allTuples before').length
    s.AcceptsAll policy k d.tuples ∧ (s.width.toNat ≤ k → d.tuples = []) := by
  intro k
  have hds : before ++ m :: after = (before ++ m :: before') ++ d :: after' := by
    rw [hd, List.append_assoc, List.cons_append]
  have hk : k = (allTuples (before ++ m :: before')).length := by
    rw [allTuples_append, allTuples_cons, ← List.append_assoc]
  rw [hk]
  exact ⟨(hds ▸ h).accepts, h.surplus _ _ _ hds⟩

/-- The frames before the one with the first tuple. -/
theorem between_before_read (hnil : allTuples before = [])
    (hd : before = before' ++ d :: after') :
    Between policy .read s (allTuples before').length d.tuples := by
  rw [hd, allTuples_append, allTuples_cons] at hnil
  have hnone := (List.append_eq_nil_iff.mp (List.append_eq_nil_iff.mp hnil).2).1
  rw [hnone]
  exact ⟨fun _ _ h => (nomatch h), fun h => absurd rfl h⟩

/-- The frames before the one with the last tuple. -/
theorem between_before_write (h : Complete policy s (before ++ m :: after))
    (hlt : (allTuples before).length < s.width.toNat) (hd : before = before' ++ d :: after') :
    Between policy .write s (allTuples before').length d.tuples := by
  subst hd
  rw [List.append_assoc, List.cons_append] at h
  refine ⟨h.accepts, fun _ => ?_⟩
  rw [allTuples_append, allTuples_cons, List.length_append, List.length_append] at hlt
  show (allTuples before').length + d.tuples.length < s.width.toNat
  omega

/-- The frames after the one with the last tuple. -/
theorem between_after_write (h : Complete policy s (before ++ m :: after))
    (hle : s.width.toNat ≤ (allTuples before ++ m.tuples).length)
    (hd : after = before' ++ d :: after') :
    Between policy .write s (allTuples before ++ m.tuples ++ allTuples before').length
      d.tuples := by
  obtain ⟨ha, hnone⟩ := h.accepts_after hd
  refine ⟨ha, fun hne => absurd (hnone ?_) hne⟩
  rw [List.length_append]
  exact Nat.le_add_right_of_le hle

/-- The frames after the one with the first tuple. -/
theorem between_after_read (h : Complete policy s (before ++ m :: after)) (hm : m.tuples ≠ [])
    (hd : after = before' ++ d :: after') :
    Between policy .read s (allTuples before ++ m.tuples ++ allTuples before').length
      d.tuples := by
  obtain ⟨ha, hnone⟩ := h.accepts_after hd
  refine ⟨ha, fun hne => ⟨?_, Nat.lt_of_not_le (mt hnone hne)⟩⟩
  have := List.length_pos_iff.mpr hm
  rw [List.length_append, List.length_append]
  omega

end Complete

theorem take_allTuples {before after : List (Delivery β)} {m : Delivery β} {n : Nat}
    (hn : n ≤ (allTuples before ++ m.tuples).length) :
    (allTuples (before ++ m :: after)).take n = (allTuples before ++ m.tuples).take n := by
  rw [allTuples_append, allTuples_cons, ← List.append_assoc, List.take_append_of_le_length hn]

/-- The word that the first bytes make, as many as the setting has. -/
theorem toNat_word_take (s : Setting) (ts : List Tuple) :
    (LittleEndian.word ((ts.take s.width.toNat).map Tuple.data)).toNat =
      LittleEndian.number ((ts.take s.width.toNat).map Tuple.data) := by
  refine LittleEndian.toNat_word ?_
  rw [List.length_map]
  exact (List.length_take_le _ _).trans s.width_le_eight

variable [Board β]

/-- **A whole write is applied once.** An engine that is not in the middle of a write has the tuples
of a whole setting, cut into frames in any way. No frame before the one with the last byte touches
the board. That frame stores the number that the bytes make, by the one order of the setting if it
has any, and nothing after it touches the board. The engine ends with nothing under way, and the
responses acknowledge the tuples of the setting and no other. -/
theorem write_applied_once {t : Transfer} {s : Setting} (hs : s ≠ .unmapped)
    (ht : t.activity.writing? = none) {ds : List (Delivery β)} (hc : Complete t.policy s ds)
    (b : Traced β Board.Call) :
    let w := s.width.toNat
    let n := LittleEndian.number (((allTuples ds).take w).map Tuple.data)
    ∃ before last after, ds = before ++ last :: after ∧
      (allTuples before).length < w ∧ w ≤ (allTuples before).length + last.tuples.length ∧
    ∃ v rs r rs' t₁, v.toNat = n ∧
      let b₁ := drifted before b
      let b₂ := (s.store v (b₁.update last.drift)).2
      (t.Delivers .write before b rs [] t₁ b₁ ∧ b₁.trace = b.trace) ∧
      (t₁.Delivers .write [last] b₁ [r] [.stored s v] t.reset b₂ ∧
        b₂.trace = b.trace ++ s.orders n) ∧
      (t.reset.Delivers .write after b₂ rs' [] t.reset (drifted after b₂) ∧
        (drifted after b₂).trace = b₂.trace) ∧
      Answered (s.reply fun _ => 0) w 0 ds (rs ++ r :: rs') := by
  intro w n
  have hw : 0 < w := s.width_pos hs
  obtain ⟨before, last, after, rfl, hlt, hle⟩ := exists_frame hw hc.enough
  have hdone : w ≤ (allTuples before ++ last.tuples).length := by rwa [List.length_append]
  let v := LittleEndian.word (((allTuples before ++ last.tuples).take w).map Tuple.data)
  have hv : v.toNat = n := by
    show v.toNat = LittleEndian.number _
    rw [take_allTuples hdone]
    exact toNat_word_take s _
  -- Before the last byte.
  have hstart : Midway t.policy .write s ([] : List Tuple).length (LittleEndian.word []) t :=
    ⟨rfl, fun _ => ht, fun h => absurd hw (Nat.not_lt.mpr h)⟩
  obtain ⟨rs, t₁, hbefore, hmid, hans⟩ :=
    delivers_write hstart (fun _ _ _ => hc.between_before_write hlt) b
  -- The frame with the last byte.
  obtain ⟨es, hrec, hre, hac⟩ :=
    hmid.completes hc.accepts hlt hle ((drifted before b).update last.drift)
  have ht₁ : t₁.reset = t.reset := congrArg (Transfer.mk · .idle) hmid.policy_eq
  have hlast := Delivers.cons hrec (.nil ..)
  rw [hac, hre, ht₁] at hlast
  -- After it.
  have hover : Midway t.policy .write s (allTuples before ++ last.tuples).length
      (LittleEndian.word ((allTuples before ++ last.tuples).map Tuple.data)) t.reset :=
    ⟨rfl, fun h => absurd h (Nat.not_lt.mpr hdone), fun _ => rfl⟩
  obtain ⟨rs', t₂, hafter, hend, hans'⟩ :=
    delivers_write hover (fun _ _ _ => hc.between_after_write hdone)
      (s.store v ((drifted before b).update last.drift)).2
  have ht₂ : t₂ = t.reset :=
    hend.eq_reset (by rw [List.length_append]; exact Nat.le_add_right_of_le hdone) rfl
  rw [ht₂] at hafter
  rw [List.length_append] at hans'
  refine ⟨before, last, after, rfl, hlt, hle, v, rs, _, rs', t₁, hv, ⟨hbefore, trace_drifted ..⟩,
    ⟨hlast, ?_⟩, ⟨hafter, trace_drifted ..⟩,
    hans.append (Nat.zero_add _) (.cons (last.answers_fill ..) hans')⟩
  rw [Setting.trace_store, hv]
  exact congrArg (· ++ s.orders n) (trace_drifted before b)

/-- A control word, with an empty frame on the way and one tuple too many, comes to a strict engine
that reads a timestamp: the word is set by the frame with its last byte. -/
theorem control_word_applied :
    let t : Transfer := ⟨.strict, .reading ⟨.timestamp .rx, 3, 0⟩⟩
    let b : Traced (MemoryBoard Ticker) Board.Call := ⟨.boot ⟨0, 1⟩, []⟩
    let frame := fun (ts : List Tuple) =>
      (⟨ts.length, .pack (.pack .write .config 0) ts, .zero, id⟩ : Delivery (MemoryBoard Ticker))
    let ds := [frame [⟨3, 0x11⟩, ⟨1, 0x22⟩], frame [], frame [⟨2, 0x33⟩, ⟨3, 0x44⟩, ⟨4, 0x55⟩],
      frame []]
    Complete .strict .control ds ∧
    ∃ before last after, ds = before ++ last :: after ∧ (allTuples before).length < 4 ∧
    ∃ (v : UInt64) (rs rs' : List Response) (r : Response) (t₁ : Transfer), v.toNat = 0x44332211 ∧
      let b₁ := drifted before b
      let b₂ := (Setting.control.store v (b₁.update last.drift)).2
      (t.Delivers .write before b rs [] t₁ b₁ ∧ b₁.trace = []) ∧
      (t₁.Delivers .write [last] b₁ [r] [.stored .control v] (fresh .strict) b₂ ∧
        b₂.trace = [.ordered (.setControl 0x44332211)]) ∧
      Answered (Setting.control.reply fun _ => 0) 4 0 ds (rs ++ r :: rs') := by
  intro t b frame ds
  have hc : Complete t.policy .control ds := by
    refine ⟨by decide, by decide, ?_⟩
    intro before d after h hle
    change [_, _, _, _] = before ++ d :: after at h
    rcases before with _ | ⟨_, _ | ⟨_, _ | ⟨_, _ | ⟨_, _ | _⟩⟩⟩⟩ <;> cases h
    · exact absurd hle (by decide)
    · rfl
    · exact absurd hle (by decide)
    · rfl
  obtain ⟨before, last, after, hds, hlt, -, v, rs, r, rs', t₁, hv, hbefore, hlast, -, hans⟩ :=
    write_applied_once (by decide) rfl hc b
  have hn : LittleEndian.number (((allTuples ds).take Setting.control.width.toNat).map Tuple.data) =
      0x44332211 := by decide
  rw [hn] at hv hlast
  exact ⟨hc, before, last, after, hds, hlt, v, rs, rs', r, t₁, hv, hbefore, hlast, hans⟩

/-- **A whole read is one snapshot.** An engine that is not in the middle of a read is asked for all
bytes of a setting, by tuples that are cut into frames in any way. The setting is fetched once, when
the first of these tuples is dealt with, and the responses answer the tuples with the bytes of that
value, whatever the board does later. Nothing else touches the board, a write that was under way is
never applied, and the engine ends with nothing under way. -/
theorem read_is_snapshot {t : Transfer} {s : Setting} (hs : s ≠ .unmapped)
    (ht : t.activity.reading? = none) {ds : List (Delivery β)} (hc : Complete t.policy s ds)
    (b : Traced β Board.Call) :
    ∃ lead first more, ds = lead ++ first :: more ∧ allTuples lead = [] ∧
    ∃ x xs, first.tuples = x :: xs ∧
      let b₀ := drifted lead b
      let v := (s.fetch (b₀.update first.drift)).1
      let b₁ := (s.fetch (b₀.update first.drift)).2
      ∃ rs r rs' t₁ t₂ es asked,
        t.Delivers .read lead b rs [] t₁ b₀ ∧
        (t₁.Delivers .read [first] b₀ [r] [.fetched s v] t₂ b₁ ∧
          (t₁.record (.frame .read first.tuples) (b₀.update first.drift)).1.1 =
            .arrived .read :: .fetched s v :: .moved .read (.start s v) x :: es) ∧
        t₂.Delivers .read more b₁ rs' [] t.reset (drifted more b₁) ∧
        Answered (s.reply (LittleEndian.digit v.toNat)) s.width.toNat 0 ds (rs ++ r :: rs') ∧
        (drifted more b₁).trace = b.trace ++ asked ∧
        ∀ c ∈ asked, ∃ q a, c = Board.Call.asked q a := by
  have hw := s.width_pos hs
  obtain ⟨lead, first, more, rfl, hlt, hle⟩ :=
    exists_frame Nat.one_pos (Nat.le_trans hw hc.enough)
  have hlead : allTuples lead = [] := List.length_eq_zero_iff.mp (Nat.lt_one_iff.mp hlt)
  rw [hlead, List.length_nil, Nat.zero_add] at hle
  obtain ⟨x, xs, hfirst⟩ := List.exists_cons_of_length_pos hle
  let v := (s.fetch ((drifted lead b).update first.drift)).1
  -- Before the first byte.
  have hstart : Midway t.policy .read s ([] : List Tuple).length v t :=
    ⟨rfl, fun _ => ht, fun h => absurd hw (Nat.not_lt.mpr h)⟩
  obtain ⟨rs, t₁, hbefore, hmid, hans⟩ :=
    delivers_read hstart (fun _ _ _ => Complete.between_before_read hlead) b
  -- The frame with the first byte.
  have haccepts := hc.accepts
  rw [hlead] at hmid haccepts
  rw [hfirst] at haccepts
  obtain ⟨es, t₂, hrec, hre, hac, hgo⟩ :=
    hmid.begins hw haccepts ((drifted lead b).update first.drift)
  rw [← hfirst] at hrec hre hgo
  have hrun := Delivers.cons hrec (.nil ..)
  rw [hac, hre] at hrun
  -- After it.
  have hmore : ∀ before' d after', more = before' ++ d :: after' →
      Between t.policy .read s (first.tuples ++ allTuples before').length d.tuples := by
    intro before' d after' hd
    have hb := hc.between_after_read (hfirst ▸ List.cons_ne_nil x xs) hd
    rwa [hlead] at hb
  obtain ⟨rs', t₃, hafter, hend, hans'⟩ :=
    delivers_read hgo hmore (s.fetch ((drifted lead b).update first.drift)).2
  have henough := hc.enough
  rw [allTuples_append, allTuples_cons, hlead, List.nil_append] at henough
  rw [hend.eq_reset henough rfl] at hafter
  obtain ⟨asked, htrace, hasked⟩ := s.trace_fetch ((drifted lead b).update first.drift)
  have hzero : ([] : List Tuple).length + (allTuples lead).length = 0 := by rw [hlead]; rfl
  rw [← Nat.zero_add first.tuples.length] at hans'
  have hanswered := hans.append hzero (.cons (first.answers_fill s _ 0) hans')
  refine ⟨lead, first, more, rfl, hlead, x, xs, hfirst, rs, _, rs', t₁, t₂, es, asked, hbefore,
    ⟨hrun, by rw [hrec]⟩, hafter, hanswered, ?_, hasked⟩
  rw [trace_drifted, htrace]
  exact congrArg (· ++ asked) (trace_drifted lead b)

/-- A trusting engine that writes a control word is asked for a timestamp, in two frames and with
one tuple too many. The clock jumps before each of them, and all bytes are those of the first look.
The slots that no tuple of the timestamp goes to keep what they held. -/
theorem timestamp_in_two_frames :
    let s := Setting.timestamp .rx
    let t : Transfer := ⟨.trust, .writing ⟨.control, 2, 0x2211⟩⟩
    let b : Traced (MemoryBoard Ticker) Board.Call := ⟨.boot ⟨0, 1⟩, []⟩
    let preset : Response := ⟨(0xA5, 0x5A), Vector.replicate 7 ⟨0xEE, 0xDD⟩⟩
    let frame := fun (ts : List Tuple) (now : UInt64) =>
      (⟨ts.length, .pack (.pack .read .config 0) ts, preset,
        fun b => { b with ticks := ⟨now, 1⟩ }⟩ : Delivery (MemoryBoard Ticker))
    let first := frame (⟨16, 0⟩ :: List.replicate 6 ⟨99, 0⟩) 0x0807060504030201
    let second := frame [⟨23, 0⟩, ⟨24, 0⟩] 0x1817161514131211
    let seven : Response :=
      ⟨(0xA5, 0x5A), #v[⟨0, 1⟩, ⟨83, 2⟩, ⟨83, 3⟩, ⟨83, 4⟩, ⟨83, 5⟩, ⟨83, 6⟩, ⟨83, 7⟩]⟩
    let last : Response :=
      ⟨(0xA5, 0x5A), #v[⟨7, 8⟩, ⟨0xEE, 0xDD⟩, ⟨0xEE, 0xDD⟩, ⟨0xEE, 0xDD⟩, ⟨0xEE, 0xDD⟩,
        ⟨0xEE, 0xDD⟩, ⟨0xEE, 0xDD⟩]⟩
    Complete .trust s [first, second] ∧
    ∃ t₁ b₁,
      t.Delivers .read [first] b [seven] [.fetched s 0x0807060504030201] t₁ b₁ ∧
      t₁.Delivers .read [second] b₁ [last] [] (fresh .trust) (drifted [second] b₁) ∧
      (drifted [second] b₁).trace = [.asked (.timestamp .rx) 0x0807060504030201] := by
  intro s t b preset frame first second seven last
  have hc : Complete t.policy s [first, second] := by
    refine ⟨by decide, by decide, ?_⟩
    intro before d after h hle
    rcases before with _ | ⟨_, _ | ⟨_, _ | _⟩⟩ <;> cases h
    · exact absurd hle (by decide)
    · exact absurd hle (by decide)
  obtain ⟨lead, d, more, hds, hlead, x, xs, -, rs, r, rs', t₁, t₂, es, asked, hbefore, ⟨hd, -⟩,
    hmore, hans, htrace, -⟩ := read_is_snapshot (by decide) rfl hc b
  have hnone : lead = [] := by
    rcases lead with _ | ⟨_, lead⟩
    · rfl
    · rw [← (List.cons.inj hds).1] at hlead
      cases hlead
  subst hnone
  cases hds
  cases hbefore.run
  have hv : (s.fetch ((drifted [] b).update first.drift)).1 = 0x0807060504030201 := by decide
  rw [hv] at hd hans
  -- The replies of the snapshot are the only answers.
  cases hans with
  | cons hfirst hrest =>
    cases hrest with
    | cons hsecond hnil =>
      cases hnil
      have hseven : r = seven :=
        (hfirst.unique (first.answers_fill s _ 0)).trans (by decide)
      have hlast : _ = last := (hsecond.unique (second.answers_fill s _ 7)).trans (by decide)
      exact ⟨hc, t₂, _, hseven ▸ hd, hlast ▸ hmore, by decide⟩

end Complete

end Transfer

end RadioControl
