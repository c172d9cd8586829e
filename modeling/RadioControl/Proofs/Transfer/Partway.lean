import Mathlib
import RadioControl.Proofs.Transfer.Journal
import RadioControl.Proofs.Transfer.Progress

/-!
# Part of the way through a setting

After the first `k` bytes of a setting the engine has `Progress.upTo s k v` in hand, with the value
`v` that a read serves or with the word that the bytes of a write make; before the first byte it has
nothing (`Progress.held`). `Setting.Accepts` says which tuple can be that of byte `k`.

* `recordServe_upTo`: of such tuples, a read serves the bytes that are next. It asks the board for
  nothing on the way, and it stops with the last byte.
* `collect_upTo`: a write takes the bytes that are next, and stops with the last.
-/

namespace RadioControl

/-! ## Words -/

namespace LittleEndian

/-- The word with these bytes, the least significant first. -/
def word (bs : List UInt8) : UInt64 := UInt64.ofNat (number bs)

theorem toNat_word {bs : List UInt8} (h : bs.length ≤ 8) : (word bs).toNat = number bs := by
  have hle : 256 ^ bs.length ≤ 256 ^ 8 := Nat.pow_le_pow_right (by decide) h
  unfold word
  rw [UInt64.toNat_ofNat']
  exact Nat.mod_eq_of_lt (Nat.lt_of_lt_of_le (number_lt bs) hle)

end LittleEndian

/-! ## Progress by bytes -/

namespace Progress

/-- The first `k` bytes of the setting have moved. -/
def upTo (s : Setting) (k : Nat) (v : UInt64) : Progress := ⟨s, UInt8.ofNat k, v⟩

/-- What is in hand after `k` bytes of the setting: nothing before the first. -/
def held (s : Setting) : Nat → UInt64 → Option Progress
  | 0, _ => none
  | k + 1, v => some (upTo s (k + 1) v)

variable {s : Setting} {k : Nat} {v : UInt64}

theorem held_of_pos (hk : 0 < k) : held s k v = some (upTo s k v) := by
  cases k with
  | zero => exact absurd hk (Nat.lt_irrefl 0)
  | succ k => rfl

theorem toNat_moved_upTo (hk : k ≤ 8) : (upTo s k v).moved.toNat = k := by
  show (UInt8.ofNat k).toNat = k
  rw [UInt8.toNat_ofNat']
  omega

theorem finished_upTo (hk : k ≤ 8) : (upTo s k v).Finished ↔ s.width.toNat ≤ k := by
  rw [finished_iff, toNat_moved_upTo hk]
  rfl

theorem satSucc_ofNat (hk : k < 8) : satSucc (UInt8.ofNat k) = UInt8.ofNat (k + 1) := by
  apply UInt8.toNat_inj.mp
  rw [toNat_satSucc, UInt8.toNat_ofNat', UInt8.toNat_ofNat']
  omega

theorem advance_upTo (hk : k < 8) : (upTo s k v).advance = upTo s (k + 1) v := by
  unfold advance upTo
  rw [satSucc_ofNat hk]

theorem head_upTo (hk : k ≤ 8) : (upTo s k v).head = LittleEndian.digit v.toNat k := by
  unfold head
  rw [toNat_moved_upTo hk, LittleEndian.byteAt_eq_digit]
  rfl

/-- A byte that is received is the leading one of the word. -/
theorem put_upTo {bs : List UInt8} (b : UInt8) (h : bs.length < 8) :
    (upTo s bs.length (LittleEndian.word bs)).put b =
      upTo s (bs.length + 1) (LittleEndian.word (bs ++ [b])) := by
  have hm := toNat_moved_upTo (s := s) (v := LittleEndian.word bs) (Nat.le_of_lt h)
  have hw := LittleEndian.toNat_word (Nat.le_of_lt h)
  have hf : (upTo s bs.length (LittleEndian.word bs)).Fits := by
    show (LittleEndian.word bs).toNat < _
    rw [hw, hm]
    exact LittleEndian.number_lt bs
  have hv : ((upTo s bs.length (LittleEndian.word bs)).put b).value =
      LittleEndian.word (bs ++ [b]) := by
    apply UInt64.toNat_inj.mp
    rw [toNat_value_put b (by rwa [hm]) hf, hm, LittleEndian.toNat_word (by simpa using h),
      LittleEndian.number_concat]
    exact congrArg (· + _) hw
  show (⟨s, satSucc (UInt8.ofNat bs.length), _⟩ : Progress) = _
  rw [satSucc_ofNat h]
  exact congrArg (Progress.mk s _) hv

end Progress

/-! ## Tuples of a setting -/

namespace Setting

/-- The tuple can be that of byte `k` of the setting. The first tuple names the setting, and a
strict policy has each of the others at the address of its byte. -/
def Accepts (policy : Policy) (s : Setting) : Nat → Tuple → Prop
  | 0, t => atAddress t.address = s
  | k + 1, t => policy = .strict → t.address = s.start + UInt8.ofNat (k + 1)

/-- So it is with the first of the tuples and byte `k`, and with those after it, as far as the
setting has bytes. -/
def AcceptsAll (policy : Policy) (s : Setting) (k : Nat) (ts : List Tuple) : Prop :=
  ∀ (i : Nat) (t : Tuple), ts[i]? = some t → k + i < s.width.toNat → s.Accepts policy (k + i) t

instance decidableAccepts (policy : Policy) (s : Setting) (t : Tuple) :
    (k : Nat) → Decidable (s.Accepts policy k t)
  | 0 => inferInstanceAs (Decidable (_ = _))
  | _ + 1 => inferInstanceAs (Decidable (_ → _))

instance decidableAcceptsAll (policy : Policy) (s : Setting) (k : Nat) (ts : List Tuple) :
    Decidable (s.AcceptsAll policy k ts) :=
  decidable_of_iff
    (∀ i : Fin ts.length, k + i < s.width.toNat → s.Accepts policy (k + i) ts[i]) <| by
    constructor
    · intro h i t ht hi
      obtain ⟨hlt, rfl⟩ := List.getElem?_eq_some_iff.mp ht
      exact h ⟨i, hlt⟩ hi
    · exact fun h i hi => h i ts[i] (List.getElem?_eq_getElem i.isLt) hi

/-- The reply to the tuple for byte `k`, with byte `k` of the answer. -/
def reply (s : Setting) (bytes : Nat → UInt8) (k : Nat) (t : Tuple) : Tuple :=
  ⟨t.address - s.start, bytes k⟩

/-- The replies to tuples from that for byte `k` on. -/
def replies (s : Setting) (bytes : Nat → UInt8) (k : Nat) (ts : List Tuple) : List Tuple :=
  ts.mapIdx fun i t => s.reply bytes (k + i) t

variable {policy : Policy} {s : Setting} {k : Nat} {t : Tuple} {as bs ts : List Tuple}

theorem AcceptsAll.head (h : s.AcceptsAll policy k (t :: ts)) (hk : k < s.width.toNat) :
    s.Accepts policy k t :=
  h 0 t rfl hk

theorem AcceptsAll.tail (h : s.AcceptsAll policy k (t :: ts)) : s.AcceptsAll policy (k + 1) ts := by
  intro i x hx hi
  rw [Nat.add_right_comm] at hi ⊢
  exact h (i + 1) x hx hi

theorem AcceptsAll.left (h : s.AcceptsAll policy k (as ++ bs)) : s.AcceptsAll policy k as := by
  intro i x hx hi
  exact h i x (List.getElem?_append_left (List.getElem?_eq_some_iff.mp hx).1 ▸ hx) hi

theorem AcceptsAll.right (h : s.AcceptsAll policy k (as ++ bs)) :
    s.AcceptsAll policy (k + as.length) bs := by
  intro i x hx hi
  rw [Nat.add_assoc] at hi ⊢
  refine h (as.length + i) x ?_ hi
  rwa [List.getElem?_append_right (Nat.le_add_right ..), Nat.add_sub_cancel_left]

@[simp] theorem replies_nil (s : Setting) (bytes : Nat → UInt8) (k : Nat) :
    s.replies bytes k [] = [] := rfl

theorem replies_cons (s : Setting) (bytes : Nat → UInt8) (k : Nat) (t : Tuple) (ts : List Tuple) :
    s.replies bytes k (t :: ts) = s.reply bytes k t :: s.replies bytes (k + 1) ts := by
  unfold replies
  rw [List.mapIdx_cons]
  simp only [Nat.add_zero, Nat.add_comm, Nat.add_left_comm]

theorem getElem?_replies (s : Setting) (bytes : Nat → UInt8) (k : Nat) (ts : List Tuple) (i : Nat) :
    (s.replies bytes k ts)[i]? = ts[i]?.map (s.reply bytes (k + i)) := by
  unfold replies
  rw [List.getElem?_mapIdx]

theorem length_replies (s : Setting) (bytes : Nat → UInt8) (k : Nat) (ts : List Tuple) :
    (s.replies bytes k ts).length = ts.length := List.length_mapIdx

end Setting

namespace Policy

variable {policy : Policy} {s : Setting} {k : Nat} {v : UInt64} {t : Tuple}

/-- The transfer goes on with an accepted tuple. -/
theorem keep_upTo_of_accepts (hk : 0 < k) (h : s.Accepts policy k t) :
    policy.keep (some (.upTo s k v)) t.address = some (.upTo s k v) := by
  cases k with
  | zero => exact absurd hk (Nat.lt_irrefl 0)
  | succ k => exact keep_eq_some_iff.mpr ⟨rfl, fun hp => (h hp).symm⟩

end Policy

namespace Transfer

variable {policy : Policy} {p? : Option Progress} {s : Setting} {k : Nat} {v : UInt64} {t : Tuple}
  {ts : List Tuple}

theorem take_sub_cons {w : Nat} (hk : k < w) :
    (t :: ts).take (w - k) = t :: ts.take (w - (k + 1)) := by
  rw [show w - k = w - (k + 1) + 1 by omega, List.take_succ_cons]

/-! ## Reads -/

section Read

variable {β : Type} [Board β] {b b' : β} {opening : List Event}

theorem recordOpen_upTo (hk : 0 < k) (h : s.Accepts policy k t) (b : β) :
    recordOpen policy (some (.upTo s k v)) t.address b = (([], .upTo s k v), b) := by
  unfold recordOpen
  rw [Policy.keep_upTo_of_accepts hk h]
  rfl

theorem recordOpen_none (h : Setting.atAddress t.address = s) (b : β) :
    recordOpen policy none t.address b =
      (([.fetched s (s.fetch b).1], .upTo s 0 (s.fetch b).1), (s.fetch b).2) := by
  unfold recordOpen
  rw [Policy.keep_none, h]
  rfl

theorem replies_moved_upTo (hk : k ≤ 8) (es : List Event) :
    replies (.moved .read (.upTo s k v) t :: es) =
      s.reply (LittleEndian.digit v.toNat) k t :: replies es := by
  rw [replies_cons, Event.reply?, Progress.head_upTo hk]
  rfl

/-- A read serves the bytes that are next, up to the last. -/
theorem recordServe_upTo
    (ho : recordOpen policy p? t.address b = ((opening, .upTo s k v), b'))
    (hk : k < s.width.toNat) (ha : s.AcceptsAll policy (k + 1) ts) :
    ∃ es, recordServe policy p? (t :: ts) b =
        ((opening ++ .moved .read (.upTo s k v) t :: es,
          if k + 1 + ts.length < s.width.toNat then some (.upTo s (k + 1 + ts.length) v) else none),
          b') ∧
      replies (.moved .read (.upTo s k v) t :: es) =
        s.replies (LittleEndian.digit v.toNat) k ((t :: ts).take (s.width.toNat - k)) ∧
      accesses es = [] := by
  have h8 := s.width_le_eight
  induction ts generalizing k p? t b opening with
  | nil =>
    rw [recordServe_cons policy p? t [] b ho, Progress.advance_upTo (by omega), List.length_nil,
      Nat.add_zero, take_sub_cons hk, List.take_nil]
    refine ⟨[], ?_, replies_moved_upTo (by omega) [], rfl⟩
    by_cases hw : s.width.toNat ≤ k + 1
    · rw [if_pos ((Progress.finished_upTo (by omega)).mpr hw), if_neg (Nat.not_lt.mpr hw)]
    · rw [if_neg (mt (Progress.finished_upTo (by omega)).mp hw), if_pos (Nat.lt_of_not_le hw)]
      rfl
  | cons t' ts ih =>
    rw [recordServe_cons policy p? t (t' :: ts) b ho, Progress.advance_upTo (by omega),
      take_sub_cons hk, Setting.replies_cons]
    by_cases hw : s.width.toNat ≤ k + 1
    · -- The setting is done, and the other tuples of the frame are ignored.
      refine ⟨[], ?_, ?_, rfl⟩
      · rw [if_pos ((Progress.finished_upTo (by omega)).mpr hw), if_neg (by omega)]
      · rw [replies_moved_upTo (by omega), Nat.sub_eq_zero_of_le hw]
        rfl
    · have hlt := Nat.lt_of_not_le hw
      have hopen := recordOpen_upTo (v := v) (Nat.succ_pos k) (ha.head hlt) b'
      obtain ⟨es, hs, hre, hac⟩ := ih hopen hlt ha.tail
      refine ⟨.moved .read (.upTo s (k + 1) v) t' :: es, ?_, ?_, ?_⟩
      · rw [if_neg (mt (Progress.finished_upTo (by omega)).mp hw), hs, List.length_cons,
          ← Nat.add_assoc, Nat.add_right_comm (k + 1)]
        rfl
      · rw [replies_moved_upTo (by omega), hre]
      · rw [accesses_cons, hac]
        rfl

/-- The frame of such a read. -/
theorem record_read_upTo {q : Transfer}
    (ho : recordOpen q.policy q.activity.reading? t.address b = ((opening, .upTo s k v), b'))
    (hk : k < s.width.toNat) (ha : s.AcceptsAll q.policy (k + 1) ts) :
    let left :=
      if k + 1 + ts.length < s.width.toNat then some (.upTo s (k + 1 + ts.length) v) else none
    ∃ es, q.record (.frame .read (t :: ts)) b =
        ((.arrived .read :: (opening ++ .moved .read (.upTo s k v) t :: es),
          { q with activity := .ofRead left }), b') ∧
      replies (.arrived .read :: (opening ++ .moved .read (.upTo s k v) t :: es)) =
        s.replies (LittleEndian.digit v.toNat) k ((t :: ts).take (s.width.toNat - k)) ∧
      accesses (.arrived .read :: (opening ++ .moved .read (.upTo s k v) t :: es)) =
        accesses opening := by
  intro left
  have hr := replies_recordOpen q.policy q.activity.reading? t.address b
  rw [ho] at hr
  obtain ⟨es, hs, hre, hac⟩ := recordServe_upTo ho hk ha
  refine ⟨es ++ [.handled (.ofRead left)], ?_, ?_, ?_⟩
  · simp only [record_read_apply, hs, List.append_assoc, List.cons_append]
    rfl
  · rw [replies_cons, replies_append, hr, ← List.cons_append, replies_append, hre]
    exact List.append_nil _
  · rw [accesses_cons, accesses_append, accesses_cons (.moved ..), accesses_append, hac]
    exact List.append_nil _

end Read

/-! ## Writes -/

section Write

variable {bs : List UInt8}

theorem openWrite_held (h : s.Accepts policy bs.length t) :
    openWrite policy (Progress.held s bs.length (LittleEndian.word bs)) t.address =
      .upTo s bs.length (LittleEndian.word bs) := by
  unfold openWrite
  cases bs with
  | nil =>
    rw [show Progress.held s [].length (LittleEndian.word []) = none from rfl, Policy.keep_none,
      show Setting.atAddress t.address = s from h]
    rfl
  | cons b bs =>
    rw [List.length_cons] at h ⊢
    rw [Progress.held_of_pos (Nat.succ_pos _), Policy.keep_upTo_of_accepts (Nat.succ_pos _) h]
    rfl

/-- A write takes the bytes that are next, up to the last. -/
theorem collect_upTo
    (ho : openWrite policy p? t.address = .upTo s bs.length (LittleEndian.word bs))
    (hk : bs.length < s.width.toNat) (ha : s.AcceptsAll policy (bs.length + 1) ts) :
    let taken := (t :: ts).take (s.width.toNat - bs.length)
    collect policy p? (t :: ts) =
      (s.replies (fun _ => 0) bs.length taken,
        some (.upTo s (bs.length + taken.length)
          (LittleEndian.word (bs ++ taken.map Tuple.data)))) := by
  intro taken
  have h8 := s.width_le_eight
  induction ts generalizing bs p? t with
  | nil =>
    have htaken : taken = [t] := List.take_of_length_le (by rw [List.length_singleton]; omega)
    have hf : ¬(Progress.upTo s bs.length (LittleEndian.word bs)).Finished :=
      mt (Progress.finished_upTo (by omega)).mp (Nat.not_le.mpr hk)
    rw [htaken, collect, ho]
    simp only [if_neg hf, Progress.put_upTo t.data (Nat.lt_of_lt_of_le hk h8)]
    split <;> rfl
  | cons t' ts ih =>
    have hf : ¬(Progress.upTo s bs.length (LittleEndian.word bs)).Finished :=
      mt (Progress.finished_upTo (by omega)).mp (Nat.not_le.mpr hk)
    have hput := Progress.put_upTo (s := s) t.data (Nat.lt_of_lt_of_le hk h8)
    have htaken : taken = t :: (t' :: ts).take (s.width.toNat - (bs.length + 1)) :=
      take_sub_cons hk
    rw [htaken, Setting.replies_cons, List.map_cons, List.append_cons, List.length_cons,
      ← Nat.add_assoc, Nat.add_right_comm, collect, ho]
    simp only [if_neg hf, hput]
    by_cases hw : s.width.toNat ≤ bs.length + 1
    · -- The setting is whole, and the other tuples of the frame are ignored.
      rw [if_pos ((Progress.finished_upTo (by omega)).mpr hw), Nat.sub_eq_zero_of_le hw,
        List.take_zero, List.map_nil, List.append_nil]
      rfl
    · have hlt := Nat.lt_of_not_le hw
      have hlen : bs.length + 1 = (bs ++ [t.data]).length := by simp
      have haccepts : s.Accepts policy (bs ++ [t.data]).length t' := hlen ▸ ha.head hlt
      have hopen := openWrite_held haccepts
      rw [Progress.held_of_pos (by omega)] at hopen
      rw [if_neg (mt (Progress.finished_upTo (by omega)).mp hw), hlen,
        ih hopen (hlen ▸ hlt) (hlen ▸ ha.tail)]
      rfl

theorem accesses_recordCollect (policy : Policy) (p? : Option Progress) (ts : List Tuple) :
    accesses (recordCollect policy p? ts).1 = [] :=
  List.filter_eq_nil_iff.mpr fun e he => by
    obtain ⟨p, t, rfl⟩ := mem_recordCollect he
    exact Bool.false_ne_true

/-- The frame of a write, told by what the loop makes of its tuples. -/
theorem record_write_of_collect {β : Type} [Board β] {q : Transfer} {rs : List Tuple}
    {left : Option Progress} (hc : collect q.policy q.activity.writing? ts = (rs, left)) (b : β) :
    let r := recordSettle left b
    ∃ es, q.record (.frame .write ts) b = ((es, { q with activity := r.1.2 }), r.2) ∧
      replies es = rs ∧ accesses es = accesses r.1.1 := by
  intro r
  have hnone := accesses_recordCollect q.policy q.activity.writing? ts
  rw [collect_eq] at hc
  rw [record_write_apply]
  generalize recordCollect q.policy q.activity.writing? ts = c at hc hnone ⊢
  cases hc
  refine ⟨.arrived .write :: (c.1 ++ (r.1.1 ++ [.handled r.1.2])), rfl, ?_, ?_⟩
  · rw [replies_cons, replies_append, replies_append, (settle_apply c.2 b).2]
    exact List.append_nil _
  · rw [accesses_cons, accesses_append, accesses_append, hnone]
    exact List.append_nil _

end Write

end Transfer

end RadioControl
