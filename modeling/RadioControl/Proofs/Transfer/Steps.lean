import Mathlib
import RadioControl.Proofs.Transfer.Provenance

/-!
# The engine tuple by tuple

A journal is also a run of a machine with smaller steps than frames: `Event.after` says what the
engine has in hand after an event, also in the middle of a frame, and `Event.Follows` which events
can come next. `recordAll_possible`: the journal of every run is a run of this machine, and after
each frame the machine has in hand what the engine keeps.

`Activity.Steady` is what every step keeps (`Event.Follows.steady`): a transfer in hand is over or
has bytes moved and bytes to move, and a word that is collected has no bit above the bytes that have
come. From it follows `engine_invariant`: in no run does a shift leave the word, does the count of
bytes stick or does an address wrap around.
-/

namespace RadioControl

namespace Activity

/-- The progress that a frame in the direction goes on with. -/
def inDirection : Direction → Activity → Option Progress
  | .read, a => a.reading?
  | .write, a => a.writing?

/-- What is under way with this progress in the direction. -/
def ofDirection : Direction → Option Progress → Activity
  | .read, p? => .ofRead p?
  | .write, none => .idle
  | .write, some p => .writing p

theorem inDirection_ofDirection (d d' : Direction) (p? : Option Progress) :
    (ofDirection d p?).inDirection d' = if d = d' then p? else none := by
  cases d <;> cases d' <;> cases p? <;> rfl

/-- Nothing in hand is finished: the engine waits for the next tuple. -/
def Waits (a : Activity) : Prop := ∀ d p, a.inDirection d = some p → ¬p.Finished

theorem waits_idle : Waits .idle := by
  intro d p h
  cases d <;> cases h

theorem waits_ofDirection {d : Direction} {p? : Option Progress} :
    (ofDirection d p?).Waits ↔ ∀ p, p? = some p → ¬p.Finished := by
  constructor
  · intro h p hp
    exact h d p (by rw [inDirection_ofDirection, if_pos rfl, hp])
  · intro h d' p hp
    rw [inDirection_ofDirection] at hp
    split at hp
    · exact h p hp
    · cases hp

end Activity

namespace Transfer

/-! ## Steps -/

/-- The progress at which a tuple is dealt with: the one in hand, if the policy has it go on at the
address of the tuple, or the beginning of the setting at this address. -/
def Opens (policy : Policy) (direction : Direction) (held : Option Progress) (t : Tuple)
    (p : Progress) : Prop :=
  policy.keep held t.address = some p ∨
    policy.keep held t.address = none ∧ p = .start (.atAddress t.address) p.value ∧
      (direction = .write → p.value = 0)

/-- What the engine has in hand after an event, with `a` in hand before it. -/
def Event.after (a : Activity) : Event → Activity
  | .arrived d => .ofDirection d (a.inDirection d)
  | .moved .read p _ => .ofRead (if p.advance.Finished then none else some p.advance)
  | .moved .write p t => .writing (if p.Finished then p else p.put t.data)
  | .stored _ _ | .reset => .idle
  | .fetched _ _ | .handled _ | .drifted => a

section After

variable {a : Activity} {p : Progress} {t : Tuple}

theorem after_read_of_finished (h : p.advance.Finished) :
    (Event.moved .read p t).after a = .idle := by
  rw [Event.after, if_pos h]
  rfl

theorem after_read_of_open (h : ¬p.advance.Finished) :
    (Event.moved .read p t).after a = .reading p.advance := by
  rw [Event.after, if_neg h]
  rfl

theorem after_write_of_finished (h : p.Finished) :
    (Event.moved .write p t).after a = .writing p := by
  rw [Event.after, if_pos h]

theorem after_write_of_open (h : ¬p.Finished) :
    (Event.moved .write p t).after a = .writing (p.put t.data) := by
  rw [Event.after, if_neg h]

end After

/-- The event can come with `a` in hand. -/
def Event.Follows (policy : Policy) (a : Activity) : Event → Prop
  | .moved d p t => a.Waits ∧ Opens policy d (a.inDirection d) t p
  | .stored s v => ∃ p, a = .writing p ∧ p.Finished ∧ p.setting = s ∧ p.value = v
  | .handled a' => a' = a ∧ a.Waits
  | _ => True

/-- What the engine has in hand after the events, with `a` in hand before them. -/
def inHand (a : Activity) : List Event → Activity
  | [] => a
  | e :: es => inHand (e.after a) es

/-- The events can come one after another, with `a` in hand before them. -/
def Possible (policy : Policy) (a : Activity) : List Event → Prop
  | [] => True
  | e :: es => e.Follows policy a ∧ Possible policy (e.after a) es

theorem inHand_append (a : Activity) (es es' : List Event) :
    inHand a (es ++ es') = inHand (inHand a es) es' := by
  induction es generalizing a with
  | nil => rfl
  | cons e es ih => exact ih (e.after a)

theorem Possible.append {policy : Policy} {a : Activity} {es es' : List Event}
    (h : Possible policy a es) (h' : Possible policy (inHand a es) es') :
    Possible policy a (es ++ es') := by
  induction es generalizing a with
  | nil => exact h'
  | cons e es ih => exact ⟨h.1, ih h.2 h'⟩

/-- The event at a place follows what is in hand there. -/
theorem Possible.follows {policy : Policy} {a : Activity} {log : List Event}
    (h : Possible policy a log) {i : Nat} {e : Event} (he : log[i]? = some e) :
    e.Follows policy (inHand a (log.take i)) := by
  induction log generalizing a i with
  | nil => cases he
  | cons e' es ih =>
    cases i with
    | zero =>
      obtain rfl : e' = e := by simpa using he
      exact h.1
    | succ i => exact ih h.2 he

/-! ## The journal is a run of the machine -/

section Journal

variable {β : Type} [Board β] {policy : Policy} {p? : Option Progress}

theorem recordOpen_possible {t : Tuple} {b : β} {opening : List Event} {p : Progress} {b' : β}
    (h : recordOpen policy p? t.address b = ((opening, p), b')) (a : Activity) :
    Possible policy a opening ∧ inHand a opening = a ∧ Opens policy .read p? t p := by
  rcases recordOpen_cases h with ⟨hk, rfl, -⟩ | ⟨hk, v, -, rfl, rfl⟩
  · exact ⟨trivial, rfl, .inl hk⟩
  · exact ⟨⟨trivial, trivial⟩, rfl, .inr ⟨hk, rfl, fun h => nomatch h⟩⟩

theorem openWrite_opens (policy : Policy) (p? : Option Progress) (t : Tuple) :
    Opens policy .write p? t (openWrite policy p? t.address) := by
  rcases openWrite_cases policy p? t.address with hk | ⟨hk, ho⟩
  · exact .inl hk
  · exact .inr ⟨hk, by rw [ho]; rfl, fun _ => by rw [ho]; rfl⟩

theorem follows_moved {d : Direction} {p : Progress} {t : Tuple}
    (hp : ∀ p, p? = some p → ¬p.Finished) (ho : Opens policy d p? t p) :
    (Event.moved d p t).Follows policy (.ofDirection d p?) := by
  refine ⟨Activity.waits_ofDirection.mpr hp, ?_⟩
  rwa [Activity.inDirection_ofDirection, if_pos rfl]

theorem recordServe_possible (policy : Policy) (hp : ∀ p, p? = some p → ¬p.Finished)
    (ts : List Tuple) (b : β) :
    let r := recordServe policy p? ts b
    Possible policy (.ofDirection .read p?) r.1.1 ∧
      inHand (.ofDirection .read p?) r.1.1 = .ofDirection .read r.1.2 ∧
      ∀ p, r.1.2 = some p → ¬p.Finished := by
  induction ts generalizing p? b with
  | nil => exact ⟨trivial, rfl, hp⟩
  | cons t ts ih =>
    rcases h : recordOpen policy p? t.address b with ⟨⟨opening, p⟩, b'⟩
    obtain ⟨hposs, hhand, hopens⟩ := recordOpen_possible h (.ofDirection .read p?)
    have hmoved := follows_moved hp hopens
    rw [recordServe_cons policy p? t ts b h]
    by_cases hf : p.advance.Finished
    · simp only [if_pos hf, inHand_append, hhand]
      refine ⟨hposs.append ⟨hhand.symm ▸ hmoved, trivial⟩, ?_, fun _ h => nomatch h⟩
      rw [inHand, after_read_of_finished hf]
      rfl
    · -- The loop goes on with the progress that the event leaves in hand.
      obtain ⟨hrest, hleft, hwait⟩ := @ih (some p.advance) (fun _ h => Option.some.inj h ▸ hf) b'
      simp only [if_neg hf, inHand_append, hhand]
      refine ⟨hposs.append ⟨hhand.symm ▸ hmoved, ?_⟩, ?_, hwait⟩
      · rwa [after_read_of_open hf]
      · rwa [inHand, after_read_of_open hf]

theorem recordCollect_possible (policy : Policy) (hp : ∀ p, p? = some p → ¬p.Finished)
    (ts : List Tuple) :
    let r := recordCollect policy p? ts
    Possible policy (.ofDirection .write p?) r.1 ∧
      inHand (.ofDirection .write p?) r.1 = .ofDirection .write r.2 := by
  induction ts generalizing p? with
  | nil => exact ⟨trivial, rfl⟩
  | cons t ts ih =>
    have hmoved := follows_moved hp (openWrite_opens policy p? t)
    rw [recordCollect]
    by_cases hf : (openWrite policy p? t.address).Finished
    · simp only [if_pos hf]
      refine ⟨⟨hmoved, trivial⟩, ?_⟩
      rw [inHand, after_write_of_finished hf]
      rfl
    · by_cases hw : ((openWrite policy p? t.address).put t.data).Finished
      · simp only [if_neg hf, if_pos hw]
        refine ⟨⟨hmoved, trivial⟩, ?_⟩
        rw [inHand, after_write_of_open hf]
        rfl
      · obtain ⟨hrest, hleft⟩ := @ih (some ((openWrite policy p? t.address).put t.data))
          fun _ h => Option.some.inj h ▸ hw
        simp only [if_neg hf, if_neg hw]
        refine ⟨⟨hmoved, ?_⟩, ?_⟩
        · rwa [after_write_of_open hf]
        · rwa [inHand, after_write_of_open hf]

theorem recordSettle_possible (policy : Policy) (p? : Option Progress) (b : β) :
    let r := recordSettle p? b
    Possible policy (.ofDirection .write p?) r.1.1 ∧
      inHand (.ofDirection .write p?) r.1.1 = r.1.2 ∧ r.1.2.Waits := by
  cases p? with
  | none => exact ⟨trivial, rfl, Activity.waits_idle⟩
  | some p =>
    by_cases hf : p.Finished
    · rw [recordSettle_of_finished hf]
      exact ⟨⟨⟨p, rfl, hf, rfl, rfl⟩, trivial⟩, rfl, Activity.waits_idle⟩
    · rw [recordSettle_of_not_finished hf]
      have hw : (Activity.ofDirection .write (some p)).Waits :=
        Activity.waits_ofDirection.mpr fun _ h => Option.some.inj h ▸ hf
      exact ⟨trivial, rfl, hw⟩

theorem record_possible {t : Transfer} (ht : t.activity.Waits) (i : Input β) (b : β) :
    let r := t.record i b
    Possible t.policy t.activity r.1.1 ∧ inHand t.activity r.1.1 = r.1.2.activity ∧
      r.1.2.activity.Waits := by
  cases i with
  | frame direction ts =>
    cases direction with
    | read =>
      obtain ⟨hposs, hhand, hleft⟩ := recordServe_possible t.policy (ht .read) ts b
      have hw := Activity.waits_ofDirection (d := .read).mpr hleft
      rw [record_read_apply]
      refine ⟨⟨trivial, hposs.append ⟨⟨hhand.symm, hhand ▸ hw⟩, trivial⟩⟩, ?_, hw⟩
      simp only [inHand, inHand_append]
      exact hhand
    | write =>
      obtain ⟨hposs, hhand⟩ := recordCollect_possible t.policy (ht .write) ts
      obtain ⟨hposs', hhand', hw⟩ := recordSettle_possible t.policy
        (recordCollect t.policy (t.activity.inDirection .write) ts).2 b
      rw [← hhand] at hposs' hhand'
      rw [record_write_apply]
      refine ⟨⟨trivial, hposs.append (hposs'.append ⟨⟨hhand'.symm, hhand' ▸ hw⟩, trivial⟩)⟩, ?_, hw⟩
      simp only [inHand, inHand_append]
      exact hhand'
  | reset => exact ⟨⟨trivial, trivial⟩, rfl, Activity.waits_idle⟩
  | drift change => exact ⟨⟨trivial, trivial⟩, rfl, ht⟩

theorem recordAll_possible {t : Transfer} (ht : t.activity.Waits) (is : List (Input β)) (b : β) :
    let r := t.recordAll is b
    Possible t.policy t.activity r.1.1.flatten ∧
      inHand t.activity r.1.1.flatten = r.1.2.activity ∧ r.1.2.activity.Waits := by
  induction is generalizing t b with
  | nil => exact ⟨trivial, rfl, ht⟩
  | cons i is ih =>
    obtain ⟨hposs, hhand, hw⟩ := record_possible ht i b
    obtain ⟨hrest, hleft, hw'⟩ := ih hw (t.record i b).2
    rw [record_policy, ← hhand] at hrest
    rw [← hhand] at hleft
    rw [recordAll_cons_apply]
    refine ⟨hposs.append hrest, ?_, hw'⟩
    rw [List.flatten_cons, inHand_append]
    exact hleft

end Journal

end Transfer

/-! ## What every step keeps -/

namespace Activity

/-- A transfer in hand is over or in the middle of its setting, and a word that is collected is a
number of as many bytes as have come. -/
structure Steady (a : Activity) : Prop where
  underway : ∀ {d p}, a.inDirection d = some p → p.Finished ∨ p.Underway
  fits : ∀ {p}, a.inDirection .write = some p → p.Fits

theorem steady_idle : Steady .idle where
  underway {d _} h := by cases d <;> cases h
  fits h := nomatch h

theorem steady_ofDirection {d : Direction} {p? : Option Progress}
    (hu : ∀ p, p? = some p → p.Finished ∨ p.Underway)
    (hf : d = .write → ∀ p, p? = some p → p.Fits) : (ofDirection d p?).Steady where
  underway {d' p} h := by
    rw [inDirection_ofDirection] at h
    split at h
    · exact hu p h
    · cases h
  fits {p} h := by
    rw [inDirection_ofDirection] at h
    split at h
    · exact hf ‹_› p h
    · cases h

theorem steady_reading {p : Progress} (h : p.Finished ∨ p.Underway) : Steady (.reading p) :=
  steady_ofDirection (d := .read) (fun _ hp => Option.some.inj hp ▸ h) nofun

theorem steady_writing {p : Progress} (h : p.Finished ∨ p.Underway) (hf : p.Fits) :
    Steady (.writing p) :=
  steady_ofDirection (d := .write) (fun _ hp => Option.some.inj hp ▸ h)
    fun _ _ hp => Option.some.inj hp ▸ hf

theorem Steady.underway_of_waits {a : Activity} (h : a.Steady) (hw : a.Waits) {d : Direction}
    {p : Progress} (hp : a.inDirection d = some p) : p.Underway :=
  (h.underway hp).resolve_left (hw d p hp)

end Activity

namespace Progress

/-- The next byte is one of the eight of the word, and what is collected has no bit from there
on. -/
structure Ready (direction : Direction) (p : Progress) : Prop where
  moved : p.moved.toNat < 8
  fits : direction = .write → p.Fits

theorem Ready.advance {p : Progress} (h : p.Ready .read) :
    p.advance.Finished ∨ p.advance.Underway := by
  have hm := toNat_moved_advance (Nat.le_of_lt h.moved)
  by_cases hf : p.advance.Finished
  · exact .inl hf
  · exact .inr ⟨by omega, not_finished_iff.mp hf⟩

theorem Ready.put {p : Progress} (h : p.Ready .write) (b : UInt8) :
    ((p.put b).Finished ∨ (p.put b).Underway) ∧ (p.put b).Fits := by
  have hm := toNat_moved_put b (Nat.le_of_lt h.moved)
  refine ⟨?_, (h.fits rfl).put b h.moved⟩
  by_cases hf : (p.put b).Finished
  · exact .inl hf
  · exact .inr ⟨by omega, not_finished_iff.mp hf⟩

end Progress

namespace Transfer

section Steady

variable {policy : Policy} {a : Activity}

/-- A tuple goes on in the middle of a setting or begins one. -/
theorem Event.Follows.ready (ha : a.Steady) {d : Direction} {p : Progress} {t : Tuple}
    (h : (Event.moved d p t).Follows policy a) : p.Ready d := by
  -- Only what is in hand can be wide or have bits set: a beginning has moved nothing.
  obtain ⟨hw, hk | ⟨-, hp, hv⟩⟩ := h
  · have hp := (Policy.keep_eq_some_iff.mp hk).1
    have hu := ha.underway_of_waits hw hp
    exact ⟨Nat.lt_of_lt_of_le hu.unfinished p.setting.width_le_eight,
      fun hd => ha.fits (hd ▸ hp)⟩
  · rw [hp]
    refine ⟨Nat.zero_lt_succ _, fun hd => ?_⟩
    rw [hv hd]
    exact Progress.fits_start_zero _

/-- **What a step keeps.** -/
theorem Event.Follows.steady {e : Event} (ha : a.Steady) (h : e.Follows policy a) :
    (e.after a).Steady := by
  cases e with
  | arrived d =>
    exact Activity.steady_ofDirection (fun _ hp => ha.underway hp)
      fun hd p hp => ha.fits (hd ▸ hp)
  | moved d p t =>
    have hr := h.ready ha
    cases d with
    | read =>
      by_cases hf : p.advance.Finished
      · rw [after_read_of_finished hf]
        exact Activity.steady_idle
      · rw [after_read_of_open hf]
        exact Activity.steady_reading hr.advance
    | write =>
      by_cases hf : p.Finished
      · rw [after_write_of_finished hf]
        exact Activity.steady_writing (.inl hf) (hr.fits rfl)
      · rw [after_write_of_open hf]
        exact Activity.steady_writing (hr.put t.data).1 (hr.put t.data).2
  | stored _ _ | reset => exact Activity.steady_idle
  | fetched _ _ | handled _ | drifted => exact ha

/-- **What a run keeps.** -/
theorem Possible.steady {es : List Event} (ha : a.Steady) (h : Possible policy a es) :
    (inHand a es).Steady := by
  induction es generalizing a with
  | nil => exact ha
  | cons e es ih => exact ih (h.1.steady ha) h.2

theorem Possible.take {es : List Event} (h : Possible policy a es) (i : Nat) :
    Possible policy a (es.take i) := by
  induction es generalizing a i with
  | nil => rwa [List.take_nil]
  | cons e es ih =>
    cases i with
    | zero => trivial
    | succ i => exact ⟨h.1, ih h.2 i⟩

end Steady

end Transfer

/-! ## The invariant -/

namespace Progress

/-- In the middle of a setting, with the next address inside it: no address wraps around. -/
structure Inside (p : Progress) : Prop where
  mapped : p.setting ≠ .unmapped
  begun : 1 ≤ p.moved.toNat
  unfinished : p.moved.toNat < p.setting.width.toNat
  narrow : p.setting.width.toNat ≤ 8
  next : p.next.toNat = p.setting.start.toNat + p.moved.toNat
  /-- The region of the setting has the next address, and does not begin there. -/
  within : p.setting.region.Contains p.next ∧ p.next ≠ p.setting.start

theorem Underway.inside {p : Progress} (h : p.Underway) : p.Inside := by
  have hs : p.setting ≠ .unmapped := by
    intro hs
    have := h.unfinished
    rw [hs] at this
    exact Nat.not_lt_zero _ this
  have hn : p.next.toNat = p.setting.start.toNat + p.moved.toNat := by
    rw [next_eq, Setting.toNat_start_add h.unfinished]
  refine ⟨hs, h.begun, h.unfinished, p.setting.width_le_eight, hn, ⟨?_, ?_⟩, h.next_ne_start hs⟩
  · exact hn ▸ Nat.le_add_right _ _
  · exact hn ▸ Nat.add_lt_add_left h.unfinished _

/-- A byte moves at this progress as it does in a word without end: the shift stays inside the word,
the count of bytes goes up by one and sticks nowhere, and a byte that is collected meets no bit that
is set. -/
structure Exact (direction : Direction) (p : Progress) : Prop where
  shift : 8 * p.moved.toNat ≤ 56
  counted : (satSucc p.moved).toNat = p.moved.toNat + 1
  clear : direction = .write → ∀ k, 8 * p.moved.toNat ≤ k → p.value.toNat.testBit k = false

theorem Ready.exact {d : Direction} {p : Progress} (h : p.Ready d) : p.Exact d where
  shift := by
    have := h.moved
    omega
  counted := toNat_moved_advance (Nat.le_of_lt h.moved)
  clear hd k hk := by
    refine Nat.testBit_lt_two_pow (Nat.lt_of_lt_of_le (h.fits hd) ?_)
    rw [← LittleEndian.two_pow_eight_mul]
    exact Nat.pow_le_pow_right (by decide) hk

end Progress

namespace Activity

/-- What the engine can have under way. -/
def Sound : Activity → Prop
  | .idle => True
  | .reading p => p.Inside
  | .writing p => p.Inside ∧ p.value.toNat < 2 ^ (8 * p.moved.toNat)

theorem Steady.sound {a : Activity} (h : a.Steady) (hw : a.Waits) : a.Sound := by
  cases a with
  | idle => trivial
  | reading p => exact (h.underway_of_waits hw (d := .read) rfl).inside
  | writing p =>
    refine ⟨(h.underway_of_waits hw (d := .write) rfl).inside, ?_⟩
    rw [LittleEndian.two_pow_eight_mul]
    exact h.fits rfl

end Activity

namespace Transfer

variable {β : Type} [Board β]

/-- **The invariant of the engine.** After any run from a fresh engine, and whenever a frame of it
is done, what is under way is `Sound`. It is so within each frame too, whenever a tuple is dealt
with: what is in hand is `Sound`, the tuple goes on with it or begins a setting as the policy has it
(`Opens`), and its byte moves exactly (`Exact`). What is in hand is told by the events alone, and it
is what the engine is left with. -/
theorem engine_invariant (policy : Policy) (inputs : List (Input β)) (b : β) :
    let journal := ((fresh policy).recordAll inputs b).1.1
    let log := journal.flatten
    let held := fun i => inHand .idle (log.take i)
    let left := ((fresh policy).feedAll inputs b).1.2.activity
    (fresh policy).Journals inputs b journal ∧
    (left = held log.length ∧ left.Sound) ∧
    (∀ i a, log[i]? = some (.handled a) → a = held i ∧ a.Sound) ∧
    (∀ i d p t, log[i]? = some (.moved d p t) →
      (held i).Sound ∧ Opens policy d ((held i).inDirection d) t p ∧ p.Exact d) := by
  intro journal log held left
  obtain ⟨hposs, hlast, hw⟩ := recordAll_possible (t := fresh policy) Activity.waits_idle inputs b
  have hsteady : ∀ i, (held i).Steady := fun i => (hposs.take i).steady Activity.steady_idle
  have hleft : left = inHand .idle log ∧ left.Waits := by
    show ((fresh policy).feedAll inputs b).1.2.activity = _ ∧
      ((fresh policy).feedAll inputs b).1.2.activity.Waits
    rw [feedAll_apply]
    exact ⟨hlast.symm, hw⟩
  refine ⟨journals_recordAll _ _ _, ⟨?_, ?_⟩, fun i a hi => ?_, fun i d p t hi => ?_⟩
  · rw [hleft.1]
    exact congrArg (inHand .idle) List.take_length.symm
  · exact (hleft.1 ▸ hposs.steady Activity.steady_idle).sound hleft.2
  · obtain ⟨ha, hw⟩ := hposs.follows hi
    exact ⟨ha, ha ▸ (hsteady i).sound hw⟩
  · have hf := hposs.follows hi
    exact ⟨(hsteady i).sound hf.1, hf.2, (hf.ready (hsteady i)).exact⟩

end Transfer

end RadioControl
