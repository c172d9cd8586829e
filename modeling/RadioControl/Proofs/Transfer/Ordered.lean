import Mathlib
import RadioControl.Board.Memory
import RadioControl.Proofs.Transfer.Partway
import RadioControl.Proofs.Transfer.Span

/-!
# Settings sent in order

The host sends a setting as one tuple for each byte, at the addresses of the bytes in their order
(`Setting.tuple`), and cuts the tuples into frames as it likes (`frames`).

* `Begins.does_write`, `Begins.does_read`: an engine that takes the first tuple for a beginning does
  one access with all of these frames: it stores the number that the bytes make, or it fetches the
  setting and answers with the bytes of the value. It has nothing under way in the end.
* `strict_synchronises`: a strict engine takes the first tuple for a beginning in every state that
  it can get into.
-/

namespace RadioControl

/-- The tuple for byte `k` of the setting. -/
def Setting.tuple (s : Setting) (data : Nat → UInt8) (k : Nat) : Tuple :=
  ⟨s.start + UInt8.ofNat k, data k⟩

/-- The reply to the tuple for byte `k`, with byte `k` of the answer. -/
def Tuple.numbered (bytes : Nat → UInt8) (k : Nat) : Tuple := ⟨UInt8.ofNat k, bytes k⟩

/-- The number that the bytes before byte `k` make, the first of them the least significant. -/
def gathered (data : Nat → UInt8) (k : Nat) : UInt64 :=
  UInt64.ofNat (LittleEndian.number ((List.range k).map data))

theorem toNat_gathered (data : Nat → UInt8) {k : Nat} (hk : k ≤ 8) :
    (gathered data k).toNat = LittleEndian.number ((List.range k).map data) :=
  LittleEndian.toNat_word (by simpa using hk)

/-! ## Tuples in order -/

namespace Setting

variable {s : Setting} {k : Nat} {data : Nat → UInt8}

theorem accepts_tuple (policy : Policy) (s : Setting) (data : Nat → UInt8) (hk : 0 < k) :
    s.Accepts policy k (s.tuple data k) := by
  cases k with
  | zero => exact absurd hk (Nat.lt_irrefl 0)
  | succ k => exact fun _ => rfl

theorem acceptsAll_range' (policy : Policy) (s : Setting) (data : Nat → UInt8) (n : Nat)
    (hk : 0 < k) : s.AcceptsAll policy k ((List.range' k n).map (s.tuple data)) := by
  intro i t ht _
  rw [List.getElem?_map] at ht
  obtain ⟨m, hm, rfl⟩ := Option.map_eq_some_iff.mp ht
  obtain ⟨hi, rfl⟩ := List.getElem?_eq_some_iff.mp hm
  rw [List.getElem_range', Nat.one_mul]
  exact accepts_tuple policy s data (Nat.lt_of_lt_of_le hk (Nat.le_add_right ..))

/-- The replies to the tuples are numbered. -/
theorem replies_range' (s : Setting) (bytes data : Nat → UInt8) (k n : Nat) :
    s.replies bytes k ((List.range' k n).map (s.tuple data)) =
      (List.range' k n).map (.numbered bytes) := by
  induction n generalizing k with
  | zero => rfl
  | succ n ih =>
    have hfirst : s.reply bytes k (s.tuple data k) = .numbered bytes k := by
      show (⟨s.start + UInt8.ofNat k - s.start, bytes k⟩ : Tuple) = _
      rw [UInt8.add_comm, UInt8.add_sub_cancel]
      rfl
    rw [List.range'_succ, List.map_cons, List.map_cons, replies_cons, ih, hfirst]

end Setting

/-- Either policy goes on with the byte that is next. -/
theorem Policy.keep_upTo (policy : Policy) (s : Setting) (k : Nat) (v : UInt64)
    (data : Nat → UInt8) : policy.keep (some (.upTo s k v)) (s.tuple data k).address =
      some (.upTo s k v) :=
  keep_eq_some_iff.mpr ⟨rfl, fun _ => rfl⟩

namespace Transfer

variable {β : Type} {policy : Policy} {p? : Option Progress} {s : Setting} {k n : Nat}
  {data : Nat → UInt8}

/-- The tuples for the bytes of the setting, cut into frames. -/
def frames (s : Setting) (direction : Direction) (data : Nat → UInt8) (cut : List (List Nat)) :
    List (Input β) :=
  cut.map fun ks => .frame direction (ks.map (s.tuple data))

/-- The replies to these frames, with the bytes of the answer. -/
def answers (bytes : Nat → UInt8) (cut : List (List Nat)) : List (List Tuple) :=
  cut.map fun ks => ks.map (.numbered bytes)

theorem cut_ne_nil {w : Nat} (hk : k < w) :
    ([] : List (List Nat)).flatten ≠ List.range' k (w - k) := by
  intro h
  have hlen := congrArg List.length h
  rw [List.length_range'] at hlen
  simp at hlen
  omega

/-- The first frame of a cut of the bytes from `k` to `w` has none of them, some or all. -/
theorem cut_cases {w : Nat} {ks : List Nat} {cut : List (List Nat)}
    (h : (ks :: cut).flatten = List.range' k (w - k)) :
    ks = [] ∧ cut.flatten = List.range' k (w - k) ∨ ∃ n, ks = List.range' k (n + 1) ∧
      (k + n + 1 < w ∧ cut.flatten = List.range' (k + n + 1) (w - (k + n + 1)) ∨
        k + n + 1 = w ∧ cut.flatten = []) := by
  obtain ⟨m, hm, rfl, hcut⟩ := List.range'_eq_append_iff.mp h.symm
  rw [Nat.mul_one, Nat.sub_sub] at hcut
  cases m with
  | zero => exact .inl ⟨rfl, hcut⟩
  | succ n =>
    refine .inr ⟨n, rfl, ?_⟩
    rcases Nat.lt_or_ge (k + n + 1) w with hlt | hge
    · exact .inl ⟨hlt, hcut⟩
    · refine .inr ⟨by omega, ?_⟩
      rw [hcut, show w - (k + (n + 1)) = 0 by omega, List.range'_zero]

variable [Board β]

/-! ## The tuples of one frame -/

/-- A write takes the bytes that are next, all that are in the frame. -/
theorem collect_range' (h : k + n < s.width.toNat)
    (ho : openWrite policy p? (s.tuple data k).address = .upTo s k (gathered data k)) :
    collect policy p? ((List.range' k (n + 1)).map (s.tuple data)) =
      ((List.range' k (n + 1)).map (.numbered fun _ => 0),
        some (.upTo s (k + n + 1) (gathered data (k + n + 1)))) := by
  have hk : ((List.range k).map data).length = k := by simp
  have hopen : openWrite policy p? (s.tuple data k).address = .upTo s
      ((List.range k).map data).length (LittleEndian.word ((List.range k).map data)) := by
    rw [hk]
    exact ho
  have hnext : s.AcceptsAll policy (((List.range k).map data).length + 1)
      ((List.range' (k + 1) n).map (s.tuple data)) := by
    rw [hk]
    exact Setting.acceptsAll_range' policy s data n (Nat.succ_pos k)
  have hc := collect_upTo hopen (by omega) hnext
  have hdata : (List.range k).map data ++
      ((List.range' k (n + 1)).map (s.tuple data)).map Tuple.data =
      (List.range (k + n + 1)).map data := by
    rw [List.map_map, Nat.add_assoc, List.range_add, List.map_append, List.range'_eq_map_range,
      List.map_map, List.map_map]
    rfl
  rw [← List.map_cons, ← List.range'_succ] at hc
  simp only [hk, List.take_of_length_le (show ((List.range' k (n + 1)).map (s.tuple data)).length ≤
    s.width.toNat - k by simp; omega), hdata, Setting.replies_range'] at hc
  rw [hc, List.length_map, List.length_range']
  rfl

/-- A read sends the bytes that are next, and asks for no value on the way. -/
theorem recordServe_range' {b b' : β} {opening : List Event} {v : UInt64}
    (h : k + n < s.width.toNat)
    (ho : recordOpen policy p? (s.tuple data k).address b = ((opening, .upTo s k v), b')) :
    ∃ es, recordServe policy p? ((List.range' k (n + 1)).map (s.tuple data)) b =
        ((es, if k + n + 1 < s.width.toNat then some (.upTo s (k + n + 1) v) else none), b') ∧
      replies es = (List.range' k (n + 1)).map (.numbered (LittleEndian.digit v.toNat)) ∧
      accesses es = accesses opening := by
  have hr := replies_recordOpen policy p? (s.tuple data k).address b
  rw [ho] at hr
  obtain ⟨es, hs, hre, hac⟩ := recordServe_upTo ho (by omega)
    (Setting.acceptsAll_range' policy s data n (Nat.succ_pos k))
  rw [← List.map_cons, ← List.range'_succ, List.length_map, List.length_range',
    Nat.add_right_comm] at hs
  rw [← List.map_cons, ← List.range'_succ, List.take_of_length_le (by simp; omega),
    Setting.replies_range'] at hre
  refine ⟨_, hs, ?_, ?_⟩
  · rw [replies_append, hr, hre]
    rfl
  · rw [accesses_append, accesses_cons, hac]
    exact List.append_nil _

/-! ## Runs and their accesses -/

/-- The inputs have these replies and these accesses to the board, and they leave the engine and the
board so. -/
structure Does (t : Transfer) (is : List (Input β)) (b : β) (rs : List (List Tuple))
    (touched : List Event) (t' : Transfer) (b' : β) : Prop where
  run : t.feedAll is b = ((rs, t'), b')
  touches : accesses (t.recordAll is b).1.1.flatten = touched

namespace Does

theorem nil (t : Transfer) (b : β) : Does t [] b [] [] t b := ⟨rfl, rfl⟩

theorem cons {t t' t'' : Transfer} {i : Input β} {is : List (Input β)} {b b' b'' : β}
    {es : List Event} {rs : List (List Tuple)} {touched : List Event}
    (h : t.record i b = ((es, t'), b')) (h' : Does t' is b' rs touched t'' b'') :
    Does t (i :: is) b (replies es :: rs) (accesses es ++ touched) t'' b'' := by
  constructor
  · rw [feedAll_cons_apply, feed_apply, h]
    simp only [h'.run]
  · rw [recordAll_cons_apply, h]
    simp only [List.flatten_cons, accesses_append, h'.touches]

end Does

/-! ## The frames of one setting -/

/-- Frames without a tuple do nothing to an engine with nothing under way. -/
theorem does_nothing (policy : Policy) (s : Setting) (direction : Direction) (data : Nat → UInt8)
    (bytes : Nat → UInt8) {cut : List (List Nat)} (hc : cut.flatten = []) (b : β) :
    Does (fresh policy) (frames s direction data cut) b (answers bytes cut) [] (fresh policy)
      b := by
  induction cut with
  | nil => exact .nil _ b
  | cons ks cut ih =>
    obtain ⟨rfl, hcut⟩ := List.append_eq_nil_iff.mp hc
    have hr : (fresh policy).record (.frame direction []) b =
        (([.arrived direction, .handled .idle], fresh policy), b) := by
      cases direction <;> rfl
    exact .cons hr (ih hcut)

/-- The next tuple of a write frame is taken for byte `k` of the setting. -/
structure AwaitsWrite (t : Transfer) (s : Setting) (data : Nat → UInt8) (k : Nat) : Prop where
  opens : openWrite t.policy t.activity.writing? (s.tuple data k).address =
    .upTo s k (gathered data k)
  unfinished : ∀ p, t.activity.writing? = some p → ¬p.Finished

theorem awaitsWrite_upTo (policy : Policy) (hk : k < s.width.toNat) :
    AwaitsWrite ⟨policy, .writing (.upTo s k (gathered data k))⟩ s data k := by
  have h8 := s.width_le_eight
  constructor
  · show (policy.keep (some _) _).getD _ = _
    rw [Policy.keep_upTo]
    rfl
  · rintro p hp
    cases hp
    rw [Progress.finished_upTo] <;> omega

namespace AwaitsWrite

variable {t : Transfer}

/-- A frame without a tuple changes nothing, or ends a read. -/
theorem record_nil (h : AwaitsWrite t s data k) (b : β) : ∃ es t',
    t.record (.frame .write []) b = ((es, t'), b) ∧ replies es = [] ∧ accesses es = [] ∧
      t'.policy = t.policy ∧ AwaitsWrite t' s data k := by
  rcases t with ⟨policy, _ | p | p⟩
  · exact ⟨_, _, rfl, rfl, rfl, rfl, h⟩
  · exact ⟨_, ⟨policy, .idle⟩, rfl, rfl, rfl, rfl, ⟨h.opens, h.unfinished⟩⟩
  · refine ⟨[.arrived .write, .handled (.writing p)], ⟨policy, .writing p⟩, ?_, rfl, rfl, rfl, h⟩
    rw [record_write_apply]
    simp only [recordCollect, Activity.writing?, recordSettle_of_not_finished (h.unfinished p rfl)]
    rfl

theorem record (h : AwaitsWrite t s data k) (hn : k + n < s.width.toNat) (b : β) :
    let r := recordSettle (some (.upTo s (k + n + 1) (gathered data (k + n + 1)))) b
    ∃ es, t.record (.frame .write ((List.range' k (n + 1)).map (s.tuple data))) b =
        ((es, { t with activity := r.1.2 }), r.2) ∧
      replies es = (List.range' k (n + 1)).map (.numbered fun _ => 0) ∧
      accesses es = accesses r.1.1 :=
  record_write_of_collect (collect_range' hn h.opens) b

end AwaitsWrite

/-- **A setting that is written in order is stored once.** -/
theorem does_writes {t : Transfer} {cut : List (List Nat)} (h : AwaitsWrite t s data k)
    (hk : k < s.width.toNat) (hc : cut.flatten = List.range' k (s.width.toNat - k)) (b : β) :
    let v := gathered data s.width.toNat
    Does t (frames s .write data cut) b (answers (fun _ => 0) cut) [.stored s v] (fresh t.policy)
      (s.store v b).2 := by
  have h8 := s.width_le_eight
  induction cut generalizing t k with
  | nil => exact absurd hc (cut_ne_nil hk)
  | cons ks cut ih =>
    rcases cut_cases hc with ⟨rfl, hcut⟩ | ⟨n, rfl, ⟨hlt, hcut⟩ | ⟨hw, hcut⟩⟩
    · obtain ⟨es, t', hr, hre, hac, hp, h'⟩ := h.record_nil b
      have hd := Does.cons hr (ih h' hk hcut)
      rwa [hre, hac, hp] at hd
    · obtain ⟨es, hr, hre, hac⟩ := h.record (n := n) (by omega) b
      have hf : ¬(Progress.upTo s (k + n + 1) (gathered data (k + n + 1))).Finished := by
        rw [Progress.finished_upTo] <;> omega
      rw [recordSettle_of_not_finished hf] at hr hac
      have hd := Does.cons hr (ih (awaitsWrite_upTo t.policy hlt) hlt hcut)
      rwa [hre, hac] at hd
    · obtain ⟨es, hr, hre, hac⟩ := h.record (n := n) (by omega) b
      have hf : (Progress.upTo s (k + n + 1) (gathered data (k + n + 1))).Finished := by
        rw [Progress.finished_upTo] <;> omega
      rw [recordSettle_of_finished hf] at hr hac
      have hd := Does.cons hr (does_nothing t.policy s .write data (fun _ => 0) hcut _)
      rw [hre, hac, hw] at hd
      exact hd

/-- The next tuple of a read frame is taken for byte `k` of the setting, with the value `v`; before
it is answered, what is in `opening` happens. -/
def AwaitsRead (t : Transfer) (s : Setting) (data : Nat → UInt8) (k : Nat) (b : β)
    (opening : List Event) (v : UInt64) (b' : β) : Prop :=
  recordOpen t.policy t.activity.reading? (s.tuple data k).address b = ((opening, .upTo s k v), b')

theorem awaitsRead_upTo (policy : Policy) (s : Setting) (data : Nat → UInt8) (k : Nat) (v : UInt64)
    (b : β) : AwaitsRead ⟨policy, .reading (.upTo s k v)⟩ s data k b [] v b := by
  unfold AwaitsRead recordOpen
  rw [show Activity.reading? (.reading (.upTo s k v)) = some (.upTo s k v) from rfl,
    Policy.keep_upTo]
  rfl

namespace AwaitsRead

variable {t : Transfer} {b b' : β} {opening : List Event} {v : UInt64}

/-- A frame without a tuple changes nothing, or ends a write. -/
theorem record_nil (h : AwaitsRead t s data k b opening v b') : ∃ es t',
    t.record (.frame .read []) b = ((es, t'), b) ∧ replies es = [] ∧ accesses es = [] ∧
      t'.policy = t.policy ∧ AwaitsRead t' s data k b opening v b' := by
  rcases t with ⟨policy, _ | p | p⟩
  · exact ⟨_, _, rfl, rfl, rfl, rfl, h⟩
  · exact ⟨_, _, rfl, rfl, rfl, rfl, h⟩
  · exact ⟨_, ⟨policy, .idle⟩, rfl, rfl, rfl, rfl, h⟩

theorem record (h : AwaitsRead t s data k b opening v b') (hn : k + n < s.width.toNat) :
    let left := if k + n + 1 < s.width.toNat then some (.upTo s (k + n + 1) v) else none
    ∃ es, t.record (.frame .read ((List.range' k (n + 1)).map (s.tuple data))) b =
        ((es, { t with activity := .ofRead left }), b') ∧
      replies es = (List.range' k (n + 1)).map (.numbered (LittleEndian.digit v.toNat)) ∧
      accesses es = accesses opening := by
  intro left
  obtain ⟨es, hs, hre, hac⟩ := recordServe_range' hn h
  rw [record_read_apply, hs]
  refine ⟨_, rfl, ?_, ?_⟩
  · rw [replies_cons, replies_append, hre]
    exact List.append_nil _
  · rw [accesses_cons, accesses_append, hac]
    exact List.append_nil _

end AwaitsRead

/-- **A setting that is read in order is fetched once**, or not at all if its value is there. -/
theorem does_reads {t : Transfer} {cut : List (List Nat)} {b b' : β} {opening : List Event}
    {v : UInt64} (h : AwaitsRead t s data k b opening v b') (hk : k < s.width.toNat)
    (hc : cut.flatten = List.range' k (s.width.toNat - k)) :
    Does t (frames s .read data cut) b (answers (LittleEndian.digit v.toNat) cut) (accesses opening)
      (fresh t.policy) b' := by
  induction cut generalizing t k b opening with
  | nil => exact absurd hc (cut_ne_nil hk)
  | cons ks cut ih =>
    rcases cut_cases hc with ⟨rfl, hcut⟩ | ⟨n, rfl, ⟨hlt, hcut⟩ | ⟨hw, hcut⟩⟩
    · obtain ⟨es, t', hr, hre, hac, hp, h'⟩ := h.record_nil
      have hd := Does.cons hr (ih h' hk hcut)
      rwa [hre, hac, hp] at hd
    · obtain ⟨es, hr, hre, hac⟩ := h.record (n := n) (by omega)
      rw [if_pos hlt] at hr
      have hd := Does.cons hr (ih (awaitsRead_upTo t.policy s data _ v b') hlt hcut)
      rw [hre, hac] at hd
      rwa [show accesses [] = [] from rfl, List.append_nil] at hd
    · obtain ⟨es, hr, hre, hac⟩ := h.record (n := n) (by omega)
      rw [if_neg (Nat.not_lt.mpr hw.ge)] at hr
      have hd := Does.cons hr
        (does_nothing t.policy s .read data (LittleEndian.digit v.toNat) hcut b')
      rwa [hre, hac, List.append_nil] at hd

/-! ## Beginnings -/

/-- What is under way, if anything is, goes on with the first tuple of no setting. -/
def Begins (t : Transfer) : Prop :=
  t.activity = .idle ∨ t.policy = .strict ∧
    ∀ p, t.activity.reading? = some p ∨ t.activity.writing? = some p → p.Underway

namespace Begins

variable {t : Transfer}

theorem fresh (policy : Policy) : (fresh policy).Begins := .inl rfl

/-- Strict engines begin anew in every state that they can get into. -/
theorem of_reachable (h : Reachable β .strict t) : t.Begins :=
  .inr ⟨h.policy_eq, fun _ hp => h.underway hp⟩

theorem keep (h : t.Begins) (hs : s ≠ .unmapped) :
    t.policy.keep t.activity.reading? s.start = none ∧
      t.policy.keep t.activity.writing? s.start = none := by
  rcases h with h | ⟨hp, hu⟩
  · rw [h]
    exact ⟨Policy.keep_none .., Policy.keep_none ..⟩
  · rw [hp]
    exact ⟨Policy.keep_strict_start (fun p h => hu p (.inl h)) hs,
      Policy.keep_strict_start (fun p h => hu p (.inr h)) hs⟩

theorem awaitsWrite (h : t.Begins) (hs : s ≠ .unmapped) (data : Nat → UInt8) :
    AwaitsWrite t s data 0 := by
  constructor
  · unfold openWrite
    rw [show (s.tuple data 0).address = s.start from UInt8.add_zero _, (h.keep hs).2,
      Setting.atAddress_start hs]
    rfl
  · intro p hp
    rcases h with h | ⟨-, hu⟩
    · rw [h] at hp
      cases hp
    · exact (hu p (.inr hp)).not_finished

theorem awaitsRead (h : t.Begins) (hs : s ≠ .unmapped) (data : Nat → UInt8) (b : β) :
    AwaitsRead t s data 0 b [.fetched s (s.fetch b).1] (s.fetch b).1 (s.fetch b).2 := by
  unfold AwaitsRead recordOpen
  rw [show (s.tuple data 0).address = s.start from UInt8.add_zero _, (h.keep hs).1,
    Setting.atAddress_start hs]
  rfl

/-- All the tuples of a setting, in their order and in any frames: the number that the bytes make
is stored. -/
theorem does_write (h : t.Begins) (hs : s ≠ .unmapped) (data : Nat → UInt8)
    {cut : List (List Nat)} (hc : cut.flatten = List.range s.width.toNat) (b : β) :
    let v := gathered data s.width.toNat
    Does t (frames s .write data cut) b (answers (fun _ => 0) cut) [.stored s v]
      (Transfer.fresh t.policy) (s.store v b).2 :=
  does_writes (h.awaitsWrite hs data) (Setting.width_pos hs) (hc.trans List.range_eq_range') b

/-- The same for a read: the setting is fetched and the replies have the bytes of its value. -/
theorem does_read (h : t.Begins) (hs : s ≠ .unmapped) (data : Nat → UInt8)
    {cut : List (List Nat)} (hc : cut.flatten = List.range s.width.toNat) (b : β) :
    let v := (s.fetch b).1
    Does t (frames s .read data cut) b (answers (LittleEndian.digit v.toNat) cut) [.fetched s v]
      (Transfer.fresh t.policy) (s.fetch b).2 :=
  does_reads (h.awaitsRead hs data b) (Setting.width_pos hs) (hc.trans List.range_eq_range')

end Begins

/-- **A strict engine synchronises itself.** Whatever it is in the middle of, all the tuples of a
setting, in their order and in any frames, are dealt with from the first on: write frames store the
number that their bytes make, once and without any byte from before; read frames fetch the setting
once and are answered with the bytes of this value. Nothing is under way in the end. -/
theorem strict_synchronises {t : Transfer} (ht : Reachable β .strict t) (hs : s ≠ .unmapped)
    (data : Nat → UInt8) {cut : List (List Nat)} (hc : cut.flatten = List.range s.width.toNat)
    (b : β) :
    (∃ v : UInt64, v.toNat = LittleEndian.number ((List.range s.width.toNat).map data) ∧
      Does t (frames s .write data cut) b (answers (fun _ => 0) cut) [.stored s v]
        (fresh .strict) (s.store v b).2) ∧
    Does t (frames s .read data cut) b (answers (LittleEndian.digit (s.fetch b).1.toNat) cut)
      [.fetched s (s.fetch b).1] (fresh .strict) (s.fetch b).2 := by
  have hb := Begins.of_reachable ht
  have hw := hb.does_write hs data hc b
  have hr := hb.does_read hs data hc b
  rw [ht.policy_eq] at hw hr
  exact ⟨⟨_, toNat_gathered data s.width_le_eight, hw⟩, hr⟩

/-- A gain is written or read, one byte in each frame, after two bytes of a control word. The read
finds the gain that the board has. -/
theorem gain_after_half_control :
    let t : Transfer := ⟨.strict, .writing ⟨.control, 2, 0x2211⟩⟩
    let b : MemoryBoard Ticker := { MemoryBoard.boot ⟨0, 1⟩ with iq := ⟨⟨0x1234, 0⟩, ⟨0, 0⟩⟩ }
    let data : Nat → UInt8 := fun k => [0x05, 0x06].getD k 0
    (∃ v : UInt64, v.toNat = 0x0605 ∧
      Does t (frames (.correction .rx .gain) .write data [[0], [1]]) b [[⟨0, 0⟩], [⟨1, 0⟩]]
        [.stored (.correction .rx .gain) v] (fresh .strict)
        ((Setting.correction .rx .gain).store v b).2) ∧
    Does t (frames (.correction .rx .gain) .read data [[0], [1]]) b [[⟨0, 0x34⟩], [⟨1, 0x12⟩]]
      [.fetched (.correction .rx .gain) 0x1234] (fresh .strict) b := by
  intro t b data
  have ht : Reachable (MemoryBoard Ticker) .strict t :=
    ⟨[.frame .write [⟨0, 0x11⟩, ⟨1, 0x22⟩]], b, by decide⟩
  have hs : Setting.correction .rx .gain ≠ .unmapped := by decide
  have hc : [[0], [1]].flatten = List.range (Setting.correction .rx .gain).width.toNat := by decide
  have hf : (Setting.correction .rx .gain).fetch b = (0x1234, b) := rfl
  have ha : answers (LittleEndian.digit (0x1234 : UInt64).toNat) [[0], [1]] =
      [[⟨0, 0x34⟩], [⟨1, 0x12⟩]] := by decide
  obtain ⟨⟨v, hv, hw⟩, hr⟩ := strict_synchronises ht hs data hc b
  rw [hf, ha] at hr
  exact ⟨⟨v, hv.trans (by decide), hw⟩, hr⟩

end Transfer

end RadioControl
