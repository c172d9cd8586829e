import Mathlib
import RadioControl.Proofs.Transfer.Run

/-!
# The journal of a run

What the replies of a run leave out is what it did in between: which tuples it dealt with and at
which progress, when it asked the board for a setting, and when it applied a write. `recordAll` runs
the engine and notes these events in their order, one list for each input.

* `feedAll_apply`: the journal is that of the run. It has the same replies, the same engine and
  the same board in the end as `feedAll`.
* `recordAll_replays`: nothing but the accesses in the journal ever touches the board, and each of
  them finds what the journal says.
* `recordAll_notes`: what the journal has for a frame is about the tuples of that frame, in their
  order and from the first on.
* `recordAll_orderly`: a value that is fetched is served at once, and the last byte of a setting
  ends the frame.
-/

namespace RadioControl.Transfer

/-- What happens in a run. -/
inductive Event where
  /-- A frame arrives, maybe with no tuple. -/
  | arrived (direction : Direction)
  /-- The board is asked for a setting and answers. -/
  | fetched (setting : Setting) (value : UInt64)
  /-- The engine deals with a tuple of a frame, at this progress. -/
  | moved (direction : Direction) (progress : Progress) (tuple : Tuple)
  /-- A write is applied to the board. -/
  | stored (setting : Setting) (value : UInt64)
  /-- A frame is done, and this is what is under way. -/
  | handled (activity : Activity)
  | reset
  /-- The board changes by itself. -/
  | drifted
  deriving DecidableEq

namespace Event

/-- The reply that comes of an event. -/
def reply? : Event → Option Tuple
  | .moved .read p t => some (p.reply t.address p.head)
  | .moved .write p t => if p.Finished then none else some (p.reply t.address 0)
  | _ => none

/-- The tuple that an event deals with. -/
def tuple? : Event → Option Tuple
  | .moved _ _ t => some t
  | _ => none

def isAccess : Event → Bool
  | .fetched _ _ | .stored _ _ => true
  | _ => false

end Event

/-- The replies in a list of events. -/
def replies (es : List Event) : List Tuple := es.filterMap Event.reply?

@[simp] theorem replies_nil : replies [] = [] := rfl

theorem replies_cons (e : Event) (es : List Event) :
    replies (e :: es) = e.reply?.toList ++ replies es := by
  unfold replies
  rw [List.filterMap_cons]
  cases e.reply? <;> rfl

@[simp] theorem replies_append (es es' : List Event) :
    replies (es ++ es') = replies es ++ replies es' :=
  List.filterMap_append

/-- The accesses to the board in a list of events. -/
def accesses (es : List Event) : List Event := es.filter Event.isAccess

theorem accesses_cons (e : Event) (es : List Event) :
    accesses (e :: es) = accesses [e] ++ accesses es :=
  List.filter_append [e] es

@[simp] theorem accesses_append (es es' : List Event) :
    accesses (es ++ es') = accesses es ++ accesses es' :=
  List.filter_append es es'

section Record

variable {β : Type} [Board β]

/-- `openRead` with its events. -/
def recordOpen (policy : Policy) (p? : Option Progress) (address : UInt8) :
    StateM β (List Event × Progress) :=
  match policy.keep p? address with
  | some p => pure ([], p)
  | none => do
    let value ← (Setting.atAddress address).fetch
    return ([.fetched (.atAddress address) value], .start (.atAddress address) value)

/-- `serve` with its events. -/
def recordServe (policy : Policy) :
    Option Progress → List Tuple → StateM β (List Event × Option Progress)
  | p?, [] => pure ([], p?)
  | p?, t :: ts => do
    let (opening, p) ← recordOpen policy p? t.address
    if p.advance.Finished then
      return (opening ++ [.moved .read p t], none)
    else
      let (rest, left) ← recordServe policy (some p.advance) ts
      return (opening ++ .moved .read p t :: rest, left)

/-- `collect` with its events. -/
def recordCollect (policy : Policy) :
    Option Progress → List Tuple → List Event × Option Progress
  | p?, [] => ([], p?)
  | p?, t :: ts =>
    let p := openWrite policy p? t.address
    if p.Finished then ([.moved .write p t], some p)
    else if (p.put t.data).Finished then ([.moved .write p t], some (p.put t.data))
    else
      let (rest, left) := recordCollect policy (some (p.put t.data)) ts
      (.moved .write p t :: rest, left)

/-- `settle` with its events. -/
def recordSettle : Option Progress → StateM β (List Event × Activity)
  | none => pure ([], .idle)
  | some p =>
    if p.Finished then do
      p.setting.store p.value
      return ([.stored p.setting p.value], .idle)
    else return ([], .writing p)

/-- `feed` with its events. -/
def record (t : Transfer) : Input β → StateM β (List Event × Transfer)
  | .frame .read ts => do
    let (es, left) ← recordServe t.policy t.activity.reading? ts
    return (.arrived .read :: es ++ [.handled (.ofRead left)], { t with activity := .ofRead left })
  | .frame .write ts => do
    let (es, left) := recordCollect t.policy t.activity.writing? ts
    let (es', activity) ← recordSettle left
    return (.arrived .write :: es ++ es' ++ [.handled activity], { t with activity })
  | .reset => pure ([.reset], t.reset)
  | .drift change => do
    modify change
    return ([.drifted], t)

/-- `feedAll` with its events, those of each input by themselves. -/
def recordAll (t : Transfer) : List (Input β) → StateM β (List (List Event) × Transfer)
  | [] => pure ([], t)
  | i :: is => do
    let (es, t') ← t.record i
    let (rest, t'') ← t'.recordAll is
    return (es :: rest, t'')

theorem record_read_apply (t : Transfer) (ts : List Tuple) (b : β) :
    t.record (.frame .read ts) b =
      let r := recordServe t.policy t.activity.reading? ts b
      ((.arrived .read :: (r.1.1 ++ [.handled (.ofRead r.1.2)]),
        { t with activity := .ofRead r.1.2 }), r.2) := rfl

theorem record_write_apply (t : Transfer) (ts : List Tuple) (b : β) :
    t.record (.frame .write ts) b =
      let c := recordCollect t.policy t.activity.writing? ts
      let r := recordSettle c.2 b
      ((.arrived .write :: (c.1 ++ (r.1.1 ++ [.handled r.1.2])), { t with activity := r.1.2 }),
        r.2) := by
  simp [record, bind_apply, pure_apply]

theorem recordAll_cons_apply (t : Transfer) (i : Input β) (is : List (Input β)) (b : β) :
    t.recordAll (i :: is) b =
      let r := t.record i b
      let q := r.1.2.recordAll is r.2
      ((r.1.1 :: q.1.1, q.1.2), q.2) := rfl

/-! ## One tuple of a frame -/

/-- A write goes on, or it begins the setting that the address names. -/
theorem openWrite_cases (policy : Policy) (p? : Option Progress) (address : UInt8) :
    policy.keep p? address = some (openWrite policy p? address) ∨
    (policy.keep p? address = none ∧
      openWrite policy p? address = .start (.atAddress address) 0) := by
  unfold openWrite
  cases policy.keep p? address with
  | some p => exact .inl rfl
  | none => exact .inr ⟨rfl, rfl⟩

/-- A read goes on, or it asks the board for the setting that the address names. -/
theorem recordOpen_cases {policy : Policy} {p? : Option Progress} {address : UInt8} {b : β}
    {opening : List Event} {p : Progress} {b' : β}
    (h : recordOpen policy p? address b = ((opening, p), b')) :
    (policy.keep p? address = some p ∧ opening = [] ∧ b' = b) ∨
    (policy.keep p? address = none ∧ ∃ v, (Setting.atAddress address).fetch b = (v, b') ∧
      opening = [.fetched (.atAddress address) v] ∧ p = .start (.atAddress address) v) := by
  unfold recordOpen at h
  cases hk : policy.keep p? address with
  | some q =>
    rw [hk] at h
    cases h
    exact .inl ⟨rfl, rfl, rfl⟩
  | none =>
    rw [hk] at h
    cases h
    exact .inr ⟨rfl, _, rfl, rfl, rfl⟩

/-- The tuples of a write touch nothing. -/
theorem mem_recordCollect {policy : Policy} {p? : Option Progress} {ts : List Tuple} {e : Event}
    (he : e ∈ (recordCollect policy p? ts).1) : ∃ p t, e = .moved .write p t := by
  induction ts generalizing p? with
  | nil => cases he
  | cons t ts ih =>
    rw [recordCollect] at he
    split at he
    · exact ⟨_, _, List.mem_singleton.mp he⟩
    · split at he
      · exact ⟨_, _, List.mem_singleton.mp he⟩
      · rcases List.mem_cons.mp he with rfl | he
        · exact ⟨_, _, rfl⟩
        · exact ih he

theorem recordServe_cons (policy : Policy) (p? : Option Progress) (t : Tuple) (ts : List Tuple)
    (b : β) {opening : List Event} {p : Progress} {b' : β}
    (h : recordOpen policy p? t.address b = ((opening, p), b')) :
    recordServe policy p? (t :: ts) b =
      if p.advance.Finished then ((opening ++ [.moved .read p t], none), b')
      else
        let r := recordServe policy (some p.advance) ts b'
        ((opening ++ .moved .read p t :: r.1.1, r.1.2), r.2) := by
  rw [recordServe, bind_apply, h]
  by_cases hp : p.advance.Finished
  · simp only [if_pos hp]
    rfl
  · simp only [if_neg hp]
    rfl

/-! ## The end of a write -/

theorem recordSettle_of_finished {p : Progress} (hp : p.Finished) (b : β) :
    recordSettle (some p) b =
      (([.stored p.setting p.value], .idle), (p.setting.store p.value b).2) := by
  simp only [recordSettle, if_pos hp]
  rfl

theorem recordSettle_of_not_finished {p : Progress} (hp : ¬p.Finished) (b : β) :
    recordSettle (some p) b = (([], .writing p), b) := by
  simp only [recordSettle, if_neg hp]
  rfl

/-! ## The journal is that of the run -/

theorem openRead_apply (policy : Policy) (p? : Option Progress) (address : UInt8) (b : β) :
    openRead policy p? address b =
      ((recordOpen policy p? address b).1.2, (recordOpen policy p? address b).2) := by
  unfold openRead recordOpen
  cases policy.keep p? address <;> rfl

theorem replies_recordOpen (policy : Policy) (p? : Option Progress) (address : UInt8) (b : β) :
    replies (recordOpen policy p? address b).1.1 = [] := by
  unfold recordOpen
  cases policy.keep p? address <;> rfl

theorem serve_apply (policy : Policy) (p? : Option Progress) (ts : List Tuple) (b : β) :
    serve policy p? ts b =
      let r := recordServe policy p? ts b
      ((replies r.1.1, r.1.2), r.2) := by
  induction ts generalizing p? b with
  | nil => rfl
  | cons t ts ih =>
    have hr := replies_recordOpen policy p? t.address b
    have ho := openRead_apply policy p? t.address b
    rcases h : recordOpen policy p? t.address b with ⟨⟨opening, p⟩, b'⟩
    rw [h] at hr ho
    rw [recordServe_cons policy p? t ts b h, serve, bind_apply, ho]
    by_cases hp : p.advance.Finished
    · simp only [if_pos hp, replies_append, hr]
      rfl
    · simp only [if_neg hp, replies_append, hr, bind_apply, ih]
      rfl

theorem collect_eq (policy : Policy) (p? : Option Progress) (ts : List Tuple) :
    collect policy p? ts =
      let r := recordCollect policy p? ts
      (replies r.1, r.2) := by
  induction ts generalizing p? with
  | nil => rfl
  | cons t ts ih =>
    rw [collect, recordCollect]
    by_cases hp : (openWrite policy p? t.address).Finished
    · simp [hp, replies_cons, Event.reply?]
    · by_cases hq : ((openWrite policy p? t.address).put t.data).Finished
      · simp [hp, hq, replies_cons, Event.reply?]
      · simp [hp, hq, replies_cons, Event.reply?, ih]

theorem settle_apply (p? : Option Progress) (b : β) :
    settle p? b = ((recordSettle p? b).1.2, (recordSettle p? b).2) ∧
      replies (recordSettle p? b).1.1 = [] := by
  cases p? with
  | none => exact ⟨rfl, rfl⟩
  | some p =>
    by_cases hp : p.Finished
    · simp only [recordSettle_of_finished hp, settle, if_pos hp]
      exact ⟨rfl, rfl⟩
    · simp only [recordSettle_of_not_finished hp, settle, if_neg hp]
      exact ⟨rfl, rfl⟩

/-- One input: the replies are those of the events, and engine and board are the same. -/
theorem feed_apply (t : Transfer) (i : Input β) (b : β) :
    t.feed i b = ((replies (t.record i b).1.1, (t.record i b).1.2), (t.record i b).2) := by
  cases i with
  | frame direction ts =>
    cases direction with
    | read =>
      show t.read ts b = _
      simp [read, record_read_apply, bind_apply, serve_apply, pure_apply, replies_cons,
        Event.reply?]
    | write =>
      obtain ⟨hs, hr⟩ := settle_apply (recordCollect t.policy t.activity.writing? ts).2 b
      show t.write ts b = _
      simp [write, record_write_apply, bind_apply, collect_eq, hs, hr, pure_apply, replies_cons,
        Event.reply?]
  | reset => rfl
  | drift change => rfl

/-- A run: the replies are those of the events, and engine and board are the same. -/
theorem feedAll_apply (t : Transfer) (is : List (Input β)) (b : β) :
    t.feedAll is b =
      (((t.recordAll is b).1.1.map replies, (t.recordAll is b).1.2), (t.recordAll is b).2) := by
  induction is generalizing t b with
  | nil => rfl
  | cons i is ih =>
    simp only [feedAll_cons_apply, recordAll_cons_apply, feed_apply, ih, List.map_cons]

/-! ## Nothing else touches the board -/

/-- What an event does to the board: an access has the effect and the answer that it has, a change
from outside may be any, and all other events leave the board alone. -/
def Event.Turns : Event → β → β → Prop
  | .fetched s v, b, b' => s.fetch b = (v, b')
  | .stored s v, b, b' => s.store v b = ((), b')
  | .drifted, _, _ => True
  | _, b, b' => b' = b

/-- The events, one after another, take the board from the first state to the second. -/
inductive Replays : β → List Event → β → Prop
  | nil (b : β) : Replays b [] b
  | cons {e : Event} {es : List Event} {b b' b'' : β} :
      e.Turns b b' → Replays b' es b'' → Replays b (e :: es) b''

namespace Replays

theorem append {es es' : List Event} {b b' b'' : β} (h : Replays b es b')
    (h' : Replays b' es' b'') : Replays b (es ++ es') b'' := by
  induction h with
  | nil b => exact h'
  | cons ht _ ih => exact .cons ht (ih h')

theorem single {e : Event} {b b' : β} (h : e.Turns b b') : Replays b [e] b' := .cons h (.nil b')

end Replays

theorem recordServe_replays (policy : Policy) (p? : Option Progress) (ts : List Tuple) (b : β) :
    Replays b (recordServe policy p? ts b).1.1 (recordServe policy p? ts b).2 := by
  induction ts generalizing p? b with
  | nil => exact .nil b
  | cons t ts ih =>
    rcases h : recordOpen policy p? t.address b with ⟨⟨opening, p⟩, b'⟩
    have ho : Replays b opening b' := by
      rcases recordOpen_cases h with ⟨-, rfl, rfl⟩ | ⟨-, v, hv, rfl, rfl⟩
      · exact .nil b'
      · exact .single hv
    rw [recordServe_cons policy p? t ts b h]
    by_cases hp : p.advance.Finished
    · rw [if_pos hp]
      exact ho.append (.single rfl)
    · rw [if_neg hp]
      exact ho.append (.cons rfl (ih _ b'))

theorem recordCollect_replays (policy : Policy) (p? : Option Progress) (ts : List Tuple) (b : β) :
    Replays b (recordCollect policy p? ts).1 b := by
  induction ts generalizing p? with
  | nil => exact .nil b
  | cons t ts ih =>
    rw [recordCollect]
    by_cases hp : (openWrite policy p? t.address).Finished
    · rw [if_pos hp]
      exact .single rfl
    · rw [if_neg hp]
      by_cases hq : ((openWrite policy p? t.address).put t.data).Finished
      · rw [if_pos hq]
        exact .single rfl
      · rw [if_neg hq]
        exact .cons rfl (ih _)

theorem recordSettle_replays (p? : Option Progress) (b : β) :
    Replays b (recordSettle p? b).1.1 (recordSettle p? b).2 := by
  cases p? with
  | none => exact .nil b
  | some p =>
    by_cases hp : p.Finished
    · rw [recordSettle_of_finished hp]
      exact .single rfl
    · rw [recordSettle_of_not_finished hp]
      exact .nil b

theorem record_replays (t : Transfer) (i : Input β) (b : β) :
    Replays b (t.record i b).1.1 (t.record i b).2 := by
  cases i with
  | frame direction ts =>
    cases direction with
    | read =>
      have hs := recordServe_replays t.policy t.activity.reading? ts b
      exact .cons rfl (hs.append (.single rfl))
    | write =>
      have hc := recordCollect_replays t.policy t.activity.writing? ts b
      have hs := recordSettle_replays (recordCollect t.policy t.activity.writing? ts).2 b
      rw [record_write_apply]
      exact .cons rfl (hc.append (hs.append (.single rfl)))
  | reset => exact .single rfl
  | drift change => exact .single trivial

theorem recordAll_replays (t : Transfer) (is : List (Input β)) (b : β) :
    Replays b (t.recordAll is b).1.1.flatten (t.recordAll is b).2 := by
  induction is generalizing t b with
  | nil => exact .nil b
  | cons i is ih =>
    rw [recordAll_cons_apply]
    exact (record_replays t i b).append (ih _ _)

/-! ## Each input by itself -/

/-- What happens within a frame in the direction: its tuples are dealt with, a read asks the board
and a write is applied. -/
def Event.Within (direction : Direction) : Event → Prop
  | .moved d _ _ => d = direction
  | .fetched _ _ => direction = .read
  | .stored _ _ => direction = .write
  | _ => False

/-- The events are those of the input, after which `a` is under way: a frame is dealt with tuple for
tuple, from the first on. -/
def Input.Notes (a : Activity) : Input β → List Event → Prop
  | .frame direction ts, es => ∃ inner : List Event,
    es = .arrived direction :: (inner ++ [.handled a]) ∧ inner.filterMap Event.tuple? <+: ts ∧
      ∀ e ∈ inner, e.Within direction
  | .reset, es => es = [.reset] ∧ a = .idle
  | .drift _, es => es = [.drifted]

theorem recordServe_notes (policy : Policy) (p? : Option Progress) (ts : List Tuple) (b : β) :
    let r := recordServe policy p? ts b
    r.1.1.filterMap Event.tuple? <+: ts ∧ ∀ e ∈ r.1.1, e.Within .read := by
  induction ts generalizing p? b with
  | nil => exact ⟨List.nil_prefix, fun _ he => (nomatch he)⟩
  | cons t ts ih =>
    rcases h : recordOpen policy p? t.address b with ⟨⟨opening, p⟩, b'⟩
    have ho : opening.filterMap Event.tuple? = [] ∧ ∀ e ∈ opening, e.Within .read := by
      rcases recordOpen_cases h with ⟨-, rfl, -⟩ | ⟨-, v, -, rfl, -⟩
      · exact ⟨rfl, fun _ he => (nomatch he)⟩
      · refine ⟨rfl, fun e he => ?_⟩
        obtain rfl := List.mem_singleton.mp he
        rfl
    rw [recordServe_cons policy p? t ts b h]
    by_cases hp : p.advance.Finished
    · simp only [if_pos hp, List.filterMap_append, ho.1, List.nil_append]
      refine ⟨(List.prefix_append [t] ts), fun e he => ?_⟩
      rcases List.mem_append.mp he with he | he
      · exact ho.2 e he
      · obtain rfl := List.mem_singleton.mp he
        rfl
    · obtain ⟨hpre, hin⟩ := ih (some p.advance) b'
      simp only [if_neg hp, List.filterMap_append, ho.1, List.nil_append]
      refine ⟨(List.prefix_cons_inj t).mpr hpre, fun e he => ?_⟩
      rcases List.mem_append.mp he with he | he
      · exact ho.2 e he
      · rcases List.mem_cons.mp he with rfl | he
        · rfl
        · exact hin e he

theorem filterMap_recordCollect (policy : Policy) (p? : Option Progress) (ts : List Tuple) :
    (recordCollect policy p? ts).1.filterMap Event.tuple? <+: ts := by
  induction ts generalizing p? with
  | nil => exact List.nil_prefix
  | cons t ts ih =>
    rw [recordCollect]
    by_cases hp : (openWrite policy p? t.address).Finished
    · rw [if_pos hp]
      exact List.prefix_append [t] ts
    · rw [if_neg hp]
      by_cases hq : ((openWrite policy p? t.address).put t.data).Finished
      · rw [if_pos hq]
        exact List.prefix_append [t] ts
      · rw [if_neg hq]
        exact (List.prefix_cons_inj t).mpr (ih _)

theorem recordSettle_notes (p? : Option Progress) (b : β) :
    let r := recordSettle p? b
    r.1.1.filterMap Event.tuple? = [] ∧ ∀ e ∈ r.1.1, e.Within .write := by
  cases p? with
  | none => exact ⟨rfl, fun _ he => (nomatch he)⟩
  | some p =>
    by_cases hp : p.Finished
    · rw [recordSettle_of_finished hp]
      refine ⟨rfl, fun e he => ?_⟩
      obtain rfl := List.mem_singleton.mp he
      rfl
    · rw [recordSettle_of_not_finished hp]
      exact ⟨rfl, fun _ he => (nomatch he)⟩

theorem record_notes (t : Transfer) (i : Input β) (b : β) :
    i.Notes (t.record i b).1.2.activity (t.record i b).1.1 := by
  cases i with
  | frame direction ts =>
    cases direction with
    | read =>
      obtain ⟨hpre, hin⟩ := recordServe_notes t.policy t.activity.reading? ts b
      exact ⟨_, rfl, hpre, hin⟩
    | write =>
      have hpre := filterMap_recordCollect t.policy t.activity.writing? ts
      obtain ⟨hnone, hin'⟩ :=
        recordSettle_notes (recordCollect t.policy t.activity.writing? ts).2 b
      rw [record_write_apply]
      refine ⟨_, congrArg _ (List.append_assoc ..).symm, ?_, fun e he => ?_⟩
      · rwa [List.filterMap_append, hnone, List.append_nil]
      · rcases List.mem_append.mp he with he | he
        · obtain ⟨p, t, rfl⟩ := mem_recordCollect he
          rfl
        · exact hin' e he
  | reset => exact ⟨rfl, rfl⟩
  | drift change => rfl

theorem recordAll_notes (t : Transfer) (is : List (Input β)) (b : β) {n : Nat} {i : Input β}
    (hi : is[n]? = some i) : ∃ es, (t.recordAll is b).1.1[n]? = some es ∧
      i.Notes (t.feedAll (is.take (n + 1)) b).1.2.activity es := by
  induction is generalizing t b n with
  | nil => cases hi
  | cons i' is ih =>
    rw [List.take_succ_cons, feedAll_cons_apply, feed_apply, recordAll_cons_apply]
    cases n with
    | zero =>
      obtain rfl : i' = i := by simpa using hi
      exact ⟨_, rfl, record_notes t i' b⟩
    | succ n => exact ih _ _ hi

/-! ## What comes next -/

/-- What an event asks of the next one: a value that is fetched is served at once, to a tuple whose
address names the setting; the last byte of a read, and a write that is applied, end the frame and
the transfer. -/
def Event.Heeds : Event → Option Event → Prop
  | .fetched s v, next? =>
    ∃ t, next? = some (.moved .read (.start s v) t) ∧ Setting.atAddress t.address = s
  | .moved .read p _, next? => p.advance.Finished → next? = some (.handled .idle)
  | .stored _ _, next? => next? = some (.handled .idle)
  | _, _ => True

theorem Event.Heeds.mono {e : Event} (h : e.Heeds none) (next? : Option Event) :
    e.Heeds next? := by
  cases e with
  | fetched s v =>
    obtain ⟨t, ht, -⟩ := h
    cases ht
  | moved d p t =>
    cases d with
    | read => exact fun hp => nomatch h hp
    | write => trivial
  | stored s v => cases h
  | _ => trivial

/-- Each event is followed by what it asks for. -/
def Orderly : List Event → Prop
  | [] => True
  | e :: es => e.Heeds es.head? ∧ Orderly es

namespace Orderly

theorem append {es es' : List Event} (h : Orderly es) (h' : Orderly es') : Orderly (es ++ es') := by
  induction es with
  | nil => exact h'
  | cons e es ih =>
    refine ⟨?_, ih h.2⟩
    cases es with
    | nil => exact h.1.mono _
    | cons e' es => exact h.1

theorem of_forall {es : List Event} (h : ∀ e ∈ es, e.Heeds none) : Orderly es := by
  induction es with
  | nil => trivial
  | cons e es ih =>
    exact ⟨(h e (List.mem_cons_self ..)).mono _, ih fun e' he => h e' (List.mem_cons_of_mem _ he)⟩

theorem heeds {es : List Event} (h : Orderly es) {i : Nat} {e : Event} (he : es[i]? = some e) :
    e.Heeds es[i + 1]? := by
  induction es generalizing i with
  | nil => cases he
  | cons e' es ih =>
    cases i with
    | zero =>
      obtain rfl : e' = e := by simpa using he
      rw [List.getElem?_cons_succ, ← List.head?_eq_getElem?]
      exact h.1
    | succ i => exact ih h.2 he

end Orderly

theorem recordOpen_orderly {policy : Policy} {p? : Option Progress} {t : Tuple} {b : β}
    {opening : List Event} {p : Progress} {b' : β}
    (h : recordOpen policy p? t.address b = ((opening, p), b')) {rest : List Event}
    (hr : Orderly (.moved .read p t :: rest)) : Orderly (opening ++ .moved .read p t :: rest) := by
  rcases recordOpen_cases h with ⟨-, rfl, rfl⟩ | ⟨-, v, -, rfl, rfl⟩
  · exact hr
  · exact ⟨⟨t, rfl, rfl⟩, hr⟩

theorem recordServe_orderly (policy : Policy) (p? : Option Progress) (ts : List Tuple) (b : β) :
    Orderly ((recordServe policy p? ts b).1.1 ++
      [.handled (.ofRead (recordServe policy p? ts b).1.2)]) := by
  induction ts generalizing p? b with
  | nil => exact ⟨trivial, trivial⟩
  | cons t ts ih =>
    rcases h : recordOpen policy p? t.address b with ⟨⟨opening, p⟩, b'⟩
    rw [recordServe_cons policy p? t ts b h]
    by_cases hp : p.advance.Finished
    · simp only [if_pos hp, List.append_assoc]
      exact recordOpen_orderly h ⟨fun _ => rfl, trivial, trivial⟩
    · simp only [if_neg hp, List.append_assoc]
      exact recordOpen_orderly h ⟨fun hf => absurd hf hp, ih _ b'⟩

theorem recordSettle_orderly (p? : Option Progress) (b : β) :
    Orderly ((recordSettle p? b).1.1 ++ [.handled (recordSettle p? b).1.2]) := by
  cases p? with
  | none => exact ⟨trivial, trivial⟩
  | some p =>
    by_cases hp : p.Finished
    · rw [recordSettle_of_finished hp]
      exact ⟨rfl, trivial, trivial⟩
    · rw [recordSettle_of_not_finished hp]
      exact ⟨trivial, trivial⟩

theorem record_orderly (t : Transfer) (i : Input β) (b : β) : Orderly (t.record i b).1.1 := by
  cases i with
  | frame direction ts =>
    cases direction with
    | read => exact ⟨trivial, recordServe_orderly t.policy t.activity.reading? ts b⟩
    | write =>
      have hc : Orderly (recordCollect t.policy t.activity.writing? ts).1 :=
        .of_forall fun e he => by
          obtain ⟨p, t, rfl⟩ := mem_recordCollect he
          trivial
      have hs := recordSettle_orderly (recordCollect t.policy t.activity.writing? ts).2 b
      rw [record_write_apply]
      exact ⟨trivial, hc.append hs⟩
  | reset => exact ⟨trivial, trivial⟩
  | drift change => exact ⟨trivial, trivial⟩

theorem recordAll_orderly (t : Transfer) (is : List (Input β)) (b : β) :
    Orderly (t.recordAll is b).1.1.flatten := by
  induction is generalizing t b with
  | nil => trivial
  | cons i is ih =>
    rw [recordAll_cons_apply]
    exact (record_orderly t i b).append (ih _ _)

end Record

end RadioControl.Transfer
