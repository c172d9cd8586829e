import Mathlib
import RadioControl.Proofs.Transfer.Journal
import RadioControl.Proofs.Transfer.Progress

/-!
# Transfers in the journal

`Span` is the stretch of a journal in which one transfer goes on: its tuples one directly after
another, with nothing between them but the ends and beginnings of frames in the same direction and
changes of the board.

`Accounted` says that the journal so far accounts for every write that was applied and for every
byte that was served: each ends a `Span` of its own setting. `Pending` says that the journal ends
with the `Span` of the transfer under way. Together they are `Consistent`: each tuple keeps it
(`accounted_moved_read`, `pending_moved_read`, `collected_put`), hence each frame and each input
(`record_consistent`), hence every run from a fresh engine (`consistent_of_fresh`).
-/

namespace RadioControl.Transfer

namespace Event

/-- A transfer in the direction outlasts the event: a frame in this direction begins or ends, or the
board changes. -/
def Pauses (direction : Direction) : Event → Prop
  | .arrived d => d = direction
  | .handled _ | .drifted => True
  | _ => False

/-- The event is part of a transfer in the direction. -/
def Continues (direction : Direction) : Event → Prop
  | .moved d _ _ => d = direction
  | e => e.Pauses direction

theorem Pauses.continues {direction : Direction} {e : Event} (h : e.Pauses direction) :
    e.Continues direction := by
  cases e with
  | moved => exact absurd h id
  | _ => exact h

theorem Pauses.tuple? {direction : Direction} {e : Event} (h : e.Pauses direction) :
    e.tuple? = none := by
  cases e with
  | moved => exact absurd h id
  | _ => rfl

end Event

/-- The transfer of the setting in one stretch of the journal, from the first tuple on, and the
tuples that it has moved so far. It began with the value `v`, and a strict engine has it go on at
the next address only. -/
inductive Span (policy : Policy) (direction : Direction) (s : Setting) (v : UInt64) :
    List Tuple → List Event → Prop
  | begin {t : Tuple} (h : Setting.atAddress t.address = s) :
      Span policy direction s v [t] [.moved direction (.start s v) t]
  | pause {ts : List Tuple} {es : List Event} {e : Event} :
      Span policy direction s v ts es → e.Pauses direction →
      Span policy direction s v ts (es ++ [e])
  | next {ts : List Tuple} {es : List Event} {p : Progress} {t : Tuple} :
      Span policy direction s v ts es → p.setting = s → p.moved.toNat = ts.length →
      (policy = .strict → t.address = s.start + UInt8.ofNat ts.length) →
      Span policy direction s v (ts ++ [t]) (es ++ [.moved direction p t])

theorem getElem?_concat_cases {α : Type} {as : List α} {a b : α} {i : Nat}
    (h : (as ++ [a])[i]? = some b) : as[i]? = some b ∨ i = as.length ∧ b = a := by
  rcases Nat.lt_or_ge i as.length with hlt | hge
  · rw [List.getElem?_append_left hlt] at h
    exact .inl h
  · rw [List.getElem?_append_right hge] at h
    obtain ⟨hi, rfl⟩ := List.getElem?_eq_some_iff.mp h
    rw [List.length_singleton] at hi
    exact .inr ⟨by omega, by simp⟩

namespace Span

variable {policy : Policy} {direction : Direction} {s : Setting} {v : UInt64} {ts : List Tuple}
  {es : List Event}

theorem length_pos (h : Span policy direction s v ts es) : 0 < ts.length := by
  induction h with
  | begin => exact Nat.one_pos
  | pause _ _ ih => exact ih
  | next => simp

/-- The tuples are those that the journal names. -/
theorem filterMap_tuple? (h : Span policy direction s v ts es) :
    es.filterMap Event.tuple? = ts := by
  induction h with
  | begin => rfl
  | pause _ he ih => simp [ih, he.tuple?]
  | next _ _ _ _ ih => simp [ih, Event.tuple?]

/-- It starts with a tuple whose address names the setting. -/
theorem eq_cons (h : Span policy direction s v ts es) :
    ∃ t ts' es', ts = t :: ts' ∧ es = .moved direction (.start s v) t :: es' ∧
      Setting.atAddress t.address = s := by
  induction h with
  | @begin t ht => exact ⟨t, [], [], rfl, rfl, ht⟩
  | @pause _ _ e _ _ ih =>
    obtain ⟨t, ts', es', rfl, rfl, ht⟩ := ih
    exact ⟨t, ts', es' ++ [e], rfl, rfl, ht⟩
  | @next _ _ p t' _ _ _ _ ih =>
    obtain ⟨t, ts', es', rfl, rfl, ht⟩ := ih
    exact ⟨t, ts' ++ [t'], es' ++ [.moved direction p t'], rfl, rfl, ht⟩

/-- Nothing else happens in it: no reset, no frame in the other direction, no access. -/
theorem continues (h : Span policy direction s v ts es) : ∀ e ∈ es, e.Continues direction := by
  induction h with
  | begin =>
    intro e he
    obtain rfl := List.mem_singleton.mp he
    rfl
  | pause _ hp ih =>
    intro e he
    rcases List.mem_append.mp he with he | he
    · exact ih e he
    · obtain rfl := List.mem_singleton.mp he
      exact hp.continues
  | next _ _ _ _ ih =>
    intro e he
    rcases List.mem_append.mp he with he | he
    · exact ih e he
    · obtain rfl := List.mem_singleton.mp he
      rfl

/-- No second transfer begins in it. -/
theorem begins_once (h : Span policy direction s v ts es) {i : Nat} (hi : 0 < i) {d : Direction}
    {p : Progress} {t : Tuple} (he : es[i]? = some (.moved d p t)) : p.moved.toNat ≠ 0 := by
  induction h with
  | begin =>
    obtain ⟨i, rfl⟩ := Nat.exists_eq_succ_of_ne_zero (Nat.ne_of_gt hi)
    cases he
  | pause _ hp ih =>
    rcases getElem?_concat_cases he with he | ⟨-, rfl⟩
    · exact ih he
    · exact absurd hp id
  | next hs _ hm _ ih =>
    rcases getElem?_concat_cases he with he | ⟨-, he⟩
    · exact ih he
    · cases he
      have := hs.length_pos
      omega

/-- A strict engine has every tuple but the first at the address of its byte. -/
theorem address_of_strict (h : Span policy direction s v ts es) (hp : policy = .strict) {k : Nat}
    (hk : 0 < k) {t : Tuple} (ht : ts[k]? = some t) : t.address = s.start + UInt8.ofNat k := by
  induction h with
  | begin =>
    obtain ⟨k, rfl⟩ := Nat.exists_eq_succ_of_ne_zero (Nat.ne_of_gt hk)
    cases ht
  | pause _ _ ih => exact ih ht
  | next _ _ _ ha ih =>
    rcases getElem?_concat_cases ht with ht | ⟨rfl, rfl⟩
    · exact ih ht
    · exact ha hp

end Span

/-! ## What the journal accounts for -/

/-- The stretch of the journal from the first tuple to the last of a write of `v` to the setting. -/
structure WholeWrite (policy : Policy) (s : Setting) (v : UInt64) (ts : List Tuple)
    (stretch : List Event) : Prop where
  span : Span policy .write s 0 ts stretch
  whole : ts.length = s.width.toNat
  value : v.toNat = LittleEndian.number (ts.map Tuple.data)
  last : ∃ p t, stretch.getLast? = some (.moved .write p t)

/-- An applied write and a served byte have the transfer that they come from right before them. -/
def Explained (policy : Policy) (before : List Event) : Event → Prop
  | .stored s v => s ≠ .unmapped →
    ∃ earlier span ts, before = earlier ++ span ∧ WholeWrite policy s v ts span
  | .moved .read p t =>
    ∃ earlier span ts, before = earlier ++ .fetched p.setting p.value :: span ∧
      Span policy .read p.setting p.value (ts ++ [t]) (span ++ [.moved .read p t]) ∧
      p.moved.toNat = ts.length ∧ (ts = [] ∨ ts.length < p.setting.width.toNat)
  | _ => True

/-- Every event is explained by those before it. -/
def Accounted (policy : Policy) (log : List Event) : Prop :=
  ∀ before e after, log = before ++ e :: after → Explained policy before e

theorem Accounted.nil (policy : Policy) : Accounted policy [] := by
  intro before e after h
  simp at h

theorem Accounted.concat {policy : Policy} {log : List Event} {e : Event}
    (h : Accounted policy log) (he : Explained policy log e) : Accounted policy (log ++ [e]) := by
  intro before e' after hs
  rcases List.eq_nil_or_concat after with rfl | ⟨after, e'', rfl⟩
  · obtain ⟨rfl, he'⟩ := List.append_inj' hs rfl
    cases he'
    exact he
  · rw [List.concat_eq_append, ← List.cons_append, ← List.append_assoc] at hs
    exact h before e' after (List.append_inj' hs rfl).1

/-- The journal ends with the transfer in the direction that is as far as `p`. -/
def EndsWith (policy : Policy) (log : List Event) : Direction → Progress → Prop
  | .read, p => ∃ earlier span ts, log = earlier ++ .fetched p.setting p.value :: span ∧
    Span policy .read p.setting p.value ts span ∧ p.moved.toNat = ts.length
  | .write, p => ∃ earlier span ts, log = earlier ++ span ∧
    Span policy .write p.setting 0 ts span ∧ p.moved.toNat = ts.length ∧
    p.value.toNat = LittleEndian.number (ts.map Tuple.data)

/-- The transfer `p` is under way, and the journal ends with it. -/
structure Pending (policy : Policy) (log : List Event) (direction : Direction) (p : Progress) :
    Prop where
  underway : p.Underway
  ends : EndsWith policy log direction p

theorem Pending.pause {policy : Policy} {log : List Event} {direction : Direction} {p : Progress}
    {e : Event} (h : Pending policy log direction p) (he : e.Pauses direction) :
    Pending policy (log ++ [e]) direction p := by
  refine ⟨h.underway, ?_⟩
  cases direction with
  | read =>
    obtain ⟨earlier, span, ts, rfl, hs, hm⟩ := h.ends
    exact ⟨earlier, span ++ [e], ts, by simp, hs.pause he, hm⟩
  | write =>
    obtain ⟨earlier, span, ts, rfl, hs, hm, hv⟩ := h.ends
    exact ⟨earlier, span ++ [e], ts, by simp, hs.pause he, hm, hv⟩

theorem Pending.fits {policy : Policy} {log : List Event} {p : Progress}
    (h : Pending policy log .write p) : p.Fits := by
  obtain ⟨-, -, ts, -, -, hm, hv⟩ := h.ends
  unfold Progress.Fits
  rw [hv, hm, ← List.length_map Tuple.data]
  exact LittleEndian.number_lt _

/-- The journal accounts for what has happened, and ends with what is under way. -/
structure Consistent (policy : Policy) (log : List Event) (a : Activity) : Prop where
  accounted : Accounted policy log
  reading : ∀ p, a.reading? = some p → Pending policy log .read p
  writing : ∀ p, a.writing? = some p → Pending policy log .write p

theorem Consistent.idle {policy : Policy} {log : List Event} (h : Accounted policy log) :
    Consistent policy log .idle :=
  ⟨h, fun _ h => (nomatch h), fun _ h => (nomatch h)⟩

/-! ## A tuple of a read -/

section Read

variable {β : Type} [Board β] {policy : Policy} {log : List Event} {p? : Option Progress}
  {t : Tuple} {b : β} {opening : List Event} {p : Progress} {b' : β}

/-- A byte that is served belongs to the read under way, or it is the first of another. -/
theorem explained_moved_read (hp : ∀ p, p? = some p → Pending policy log .read p)
    (h : recordOpen policy p? t.address b = ((opening, p), b')) :
    Explained policy (log ++ opening) (.moved .read p t) := by
  rcases recordOpen_cases h with ⟨hk, rfl, rfl⟩ | ⟨-, v, -, rfl, rfl⟩
  · obtain ⟨hp?, hn⟩ := Policy.keep_eq_some_iff.mp hk
    obtain ⟨hu, earlier, span, ts, rfl, hs, hm⟩ := hp p hp?
    refine ⟨earlier, span, ts, by simp, hs.next rfl hm fun hstrict => ?_, hm,
      .inr (hm ▸ hu.unfinished)⟩
    rw [← hn hstrict, Progress.next_eq, hm]
  · exact ⟨log, [], [], rfl, .begin rfl, rfl, .inl rfl⟩

theorem accounted_moved_read (ha : Accounted policy log)
    (hp : ∀ p, p? = some p → Pending policy log .read p)
    (h : recordOpen policy p? t.address b = ((opening, p), b')) :
    Accounted policy (log ++ (opening ++ [.moved .read p t])) := by
  rw [← List.append_assoc]
  refine .concat ?_ (explained_moved_read hp h)
  rcases recordOpen_cases h with ⟨-, rfl, -⟩ | ⟨-, v, -, rfl, -⟩
  · rwa [List.append_nil]
  · exact ha.concat trivial

theorem pending_moved_read (hp : ∀ p, p? = some p → Pending policy log .read p)
    (h : recordOpen policy p? t.address b = ((opening, p), b')) (hf : ¬p.advance.Finished) :
    Pending policy (log ++ (opening ++ [.moved .read p t])) .read p.advance := by
  have hm8 : p.moved.toNat ≤ 8 := by
    rcases recordOpen_cases h with ⟨hk, -, -⟩ | ⟨-, v, -, -, rfl⟩
    · obtain ⟨hu, -⟩ := hp p (Policy.keep_eq_some_iff.mp hk).1
      exact Nat.le_of_lt (Nat.lt_of_lt_of_le hu.unfinished p.setting.width_le_eight)
    · exact Nat.zero_le _
  have ha := Progress.toNat_moved_advance hm8
  obtain ⟨earlier, span, ts, hl, hs, hm, -⟩ := explained_moved_read hp h
  refine ⟨⟨by omega, Progress.not_finished_iff.mp hf⟩, ?_⟩
  refine ⟨earlier, _, ts ++ [t], ?_, hs, ?_⟩
  · rw [← List.append_assoc, hl, List.append_assoc]
    rfl
  · rw [ha, hm, List.length_append, List.length_singleton]

end Read

/-! ## A tuple of a write -/

section Write

variable {policy : Policy} {log : List Event} {p? : Option Progress} {t : Tuple}

/-- A write that takes no byte is at an address of no setting. -/
theorem openWrite_finished (hp : ∀ p, p? = some p → Pending policy log .write p)
    (hf : (openWrite policy p? t.address).Finished) :
    (openWrite policy p? t.address).setting = .unmapped := by
  rcases openWrite_cases policy p? t.address with hk | ⟨-, ho⟩
  · exact absurd hf (hp _ (Policy.keep_eq_some_iff.mp hk).1).underway.not_finished
  · rw [ho] at hf ⊢
    by_contra hs
    exact absurd (Setting.width_pos hs) (Nat.not_lt.mpr (Progress.finished_iff.mp hf))

/-- Any other write goes on with the byte of the tuple, or begins with it. -/
theorem endsWith_put (hp : ∀ p, p? = some p → Pending policy log .write p)
    (hf : ¬(openWrite policy p? t.address).Finished) :
    EndsWith policy (log ++ [.moved .write (openWrite policy p? t.address) t]) .write
      ((openWrite policy p? t.address).put t.data) := by
  have h8 := Nat.lt_of_lt_of_le (Progress.not_finished_iff.mp hf) (Setting.width_le_eight _)
  rcases openWrite_cases policy p? t.address with hk | ⟨-, ho⟩
  · generalize openWrite policy p? t.address = p at hf h8 hk ⊢
    obtain ⟨hp?, hn⟩ := Policy.keep_eq_some_iff.mp hk
    have hfits := (hp p hp?).fits
    obtain ⟨-, earlier, span, ts, rfl, hs, hm, hv⟩ := hp p hp?
    refine ⟨earlier, _, ts ++ [t], List.append_assoc .., hs.next rfl hm fun hstrict => ?_, ?_, ?_⟩
    · rw [← hn hstrict, Progress.next_eq, hm]
    · rw [Progress.toNat_moved_put _ (Nat.le_of_lt h8), hm, List.length_append,
        List.length_singleton]
    · rw [Progress.toNat_value_put _ h8 hfits, hv, hm, List.map_append,
        List.map_singleton, LittleEndian.number_concat, List.length_map]
  · rw [ho] at h8 ⊢
    refine ⟨log, _, [t], rfl, .begin rfl, ?_, ?_⟩
    · exact Progress.toNat_moved_put _ (Nat.le_of_lt h8)
    · rw [Progress.toNat_value_put _ h8 (Progress.fits_start_zero _)]
      simp [LittleEndian.number]

/-- What the tuples of a write frame leave: a write that is whole has its stretch of the journal
right here, and any other is under way. -/
structure Collected (policy : Policy) (log : List Event) (p : Progress) : Prop where
  whole : p.Finished → Explained policy log (.stored p.setting p.value)
  unfinished : ¬p.Finished → Pending policy log .write p

theorem Pending.collected {p : Progress} (h : Pending policy log .write p) :
    Collected policy log p :=
  ⟨fun hf => absurd hf h.underway.not_finished, fun _ => h⟩

theorem collected_put (hp : ∀ p, p? = some p → Pending policy log .write p)
    (hf : ¬(openWrite policy p? t.address).Finished) :
    Collected policy (log ++ [.moved .write (openWrite policy p? t.address) t])
      ((openWrite policy p? t.address).put t.data) := by
  have he := endsWith_put hp hf
  have hlt := Progress.not_finished_iff.mp hf
  have hm := Progress.toNat_moved_put t.data
    (Nat.le_of_lt (Nat.lt_of_lt_of_le hlt (Setting.width_le_eight _)))
  generalize openWrite policy p? t.address = p at he hlt hm ⊢
  constructor
  · intro hw _
    obtain ⟨earlier, span, ts, hl, hs, hts, hv⟩ := he
    refine ⟨earlier, span, ts, hl, hs, ?_, hv, p, t, ?_⟩
    · have hle := Progress.finished_iff.mp hw
      rw [Progress.setting_put] at hle ⊢
      omega
    · obtain ⟨_, _, _, -, rfl, -⟩ := hs.eq_cons
      rw [← List.getLast?_append_of_ne_nil earlier (List.cons_ne_nil _ _), ← hl,
        List.getLast?_concat]
  · intro hn
    refine ⟨⟨?_, Progress.not_finished_iff.mp hn⟩, he⟩
    omega

end Write

/-! ## Frames -/

section Frames

variable {β : Type} [Board β] {policy : Policy} {log : List Event} {p? : Option Progress}

theorem recordServe_accounted (ha : Accounted policy log)
    (hp : ∀ p, p? = some p → Pending policy log .read p) (ts : List Tuple) (b : β) :
    let r := recordServe policy p? ts b
    Accounted policy (log ++ r.1.1) ∧
      ∀ p, r.1.2 = some p → Pending policy (log ++ r.1.1) .read p := by
  induction ts generalizing log p? b with
  | nil =>
    simp only [recordServe, pure_apply, List.append_nil]
    exact ⟨ha, hp⟩
  | cons t ts ih =>
    rcases h : recordOpen policy p? t.address b with ⟨⟨opening, p⟩, b'⟩
    have ha' := accounted_moved_read ha hp h
    rw [recordServe_cons policy p? t ts b h]
    by_cases hf : p.advance.Finished
    · simp only [if_pos hf]
      exact ⟨ha', fun _ h => by cases h⟩
    · have hp' := pending_moved_read hp h hf
      simp only [if_neg hf]
      rw [List.append_cons opening, ← List.append_assoc]
      exact ih ha' (fun _ h => Option.some.inj h ▸ hp') b'

theorem recordCollect_accounted (ha : Accounted policy log)
    (hp : ∀ p, p? = some p → Pending policy log .write p) (ts : List Tuple) :
    let r := recordCollect policy p? ts
    Accounted policy (log ++ r.1) ∧ ∀ p, r.2 = some p → Collected policy (log ++ r.1) p := by
  induction ts generalizing log p? with
  | nil =>
    simp only [recordCollect, List.append_nil]
    exact ⟨ha, fun p h => (hp p h).collected⟩
  | cons t ts ih =>
    have ha' : Accounted policy (log ++ [.moved .write (openWrite policy p? t.address) t]) :=
      ha.concat trivial
    rw [recordCollect]
    by_cases hf : (openWrite policy p? t.address).Finished
    · have hu := openWrite_finished hp hf
      simp only [if_pos hf]
      refine ⟨ha', fun p h => ?_⟩
      obtain rfl := Option.some.inj h
      exact ⟨fun _ hs => absurd hu hs, fun hn => absurd hf hn⟩
    · have hc := collected_put hp hf
      simp only [if_neg hf]
      by_cases hw : ((openWrite policy p? t.address).put t.data).Finished
      · simp only [if_pos hw]
        exact ⟨ha', fun _ h => Option.some.inj h ▸ hc⟩
      · simp only [if_neg hw]
        rw [List.append_cons]
        exact ih ha' fun _ h => Option.some.inj h ▸ hc.unfinished hw

/-- The end of a write frame: what is under way is what the engine goes on with. -/
theorem recordSettle_consistent (ha : Accounted policy log)
    (hc : ∀ p, p? = some p → Collected policy log p) (b : β) :
    let r := recordSettle p? b
    Consistent policy (log ++ (r.1.1 ++ [.handled r.1.2])) r.1.2 := by
  cases p? with
  | none => exact .idle (ha.concat trivial)
  | some p =>
    by_cases hf : p.Finished
    · rw [recordSettle_of_finished hf]
      simp only
      rw [← List.append_assoc]
      exact .idle ((ha.concat ((hc p rfl).whole hf)).concat trivial)
    · have hp := ((hc p rfl).unfinished hf).pause (e := .handled (.writing p)) trivial
      rw [recordSettle_of_not_finished hf]
      exact ⟨ha.concat trivial, fun _ h => (nomatch h), fun _ h => by cases h; exact hp⟩

theorem recordServe_consistent (ha : Accounted policy log)
    (hp : ∀ p, p? = some p → Pending policy log .read p) (ts : List Tuple) (b : β) :
    let r := recordServe policy p? ts b
    Consistent policy (log ++ (r.1.1 ++ [.handled (.ofRead r.1.2)])) (.ofRead r.1.2) := by
  obtain ⟨hs, hleft⟩ := recordServe_accounted ha hp ts b
  generalize recordServe policy p? ts b = r at hs hleft ⊢
  obtain ⟨⟨es, left⟩, b'⟩ := r
  simp only at hs hleft ⊢
  rw [← List.append_assoc]
  cases left with
  | none => exact .idle (hs.concat trivial)
  | some p =>
    have hp := (hleft p rfl).pause (e := .handled (.reading p)) trivial
    exact ⟨hs.concat trivial, fun _ h => by cases h; exact hp, fun _ h => (nomatch h)⟩

end Frames

/-! ## Runs -/

section Runs

variable {β : Type} [Board β]

@[simp] theorem record_policy (t : Transfer) (i : Input β) (b : β) :
    (t.record i b).1.2.policy = t.policy := by
  cases i with
  | frame direction ts =>
    cases direction with
    | read => rfl
    | write => rw [record_write_apply]
  | _ => rfl

/-- One input: the journal still accounts for everything, and ends with what is under way. -/
theorem record_consistent {t : Transfer} {log : List Event} (h : Consistent t.policy log t.activity)
    (i : Input β) (b : β) :
    Consistent t.policy (log ++ (t.record i b).1.1) (t.record i b).1.2.activity := by
  cases i with
  | frame direction ts =>
    cases direction with
    | read =>
      rw [record_read_apply]
      simp only
      rw [List.append_cons]
      exact recordServe_consistent (h.accounted.concat (e := .arrived .read) trivial)
        (fun p hp => (h.reading p hp).pause (e := .arrived .read) rfl) ts b
    | write =>
      obtain ⟨hc, hleft⟩ := recordCollect_accounted
        (h.accounted.concat (e := .arrived .write) trivial)
        (fun p hp => (h.writing p hp).pause (e := .arrived .write) rfl) ts
      rw [record_write_apply]
      simp only
      rw [List.append_cons, ← List.append_assoc]
      exact recordSettle_consistent hc hleft b
  | reset => exact .idle (h.accounted.concat trivial)
  | drift change =>
    exact ⟨h.accounted.concat trivial, fun p hp => (h.reading p hp).pause trivial,
      fun p hp => (h.writing p hp).pause trivial⟩

theorem recordAll_consistent {t : Transfer} {log : List Event}
    (h : Consistent t.policy log t.activity) (is : List (Input β)) (b : β) :
    Consistent t.policy (log ++ (t.recordAll is b).1.1.flatten)
      (t.recordAll is b).1.2.activity := by
  induction is generalizing t log b with
  | nil =>
    show Consistent t.policy (log ++ []) t.activity
    rwa [List.append_nil]
  | cons i is ih =>
    have hr := record_consistent h i b
    rw [← record_policy t i b] at hr
    have ha := ih hr (t.record i b).2
    rw [record_policy, List.append_assoc] at ha
    exact ha

/-- **What a run accounts for.** Every write that a run from a fresh engine applies, and every byte
that it serves, is the end of a transfer of its own in the journal, and so is what is under way. -/
theorem consistent_of_fresh (policy : Policy) (is : List (Input β)) (b : β) :
    Consistent policy ((fresh policy).recordAll is b).1.1.flatten
      ((fresh policy).recordAll is b).1.2.activity := by
  have h : Consistent policy [] .idle := .idle (.nil policy)
  exact recordAll_consistent (t := fresh policy) h is b

theorem recordAll_policy (t : Transfer) (is : List (Input β)) (b : β) :
    (t.recordAll is b).1.2.policy = t.policy := by
  induction is generalizing t b with
  | nil => rfl
  | cons i is ih =>
    rw [recordAll_cons_apply, ← record_policy t i b]
    exact ih _ _

/-- An engine that a run ends with has its policy still. -/
theorem Reachable.policy_eq {policy : Policy} {t : Transfer} (h : Reachable β policy t) :
    t.policy = policy := by
  obtain ⟨is, b, rfl⟩ := h
  rw [feedAll_apply]
  exact recordAll_policy (fresh policy) is b

/-- What an engine is in the middle of has bytes moved and bytes to move. -/
theorem Reachable.underway {policy : Policy} {t : Transfer} (h : Reachable β policy t)
    {p : Progress} (hp : t.activity.reading? = some p ∨ t.activity.writing? = some p) :
    p.Underway := by
  obtain ⟨is, b, rfl⟩ := h
  have hc := consistent_of_fresh policy is b
  rw [feedAll_apply] at hp
  rcases hp with hp | hp
  · exact (hc.reading p hp).underway
  · exact (hc.writing p hp).underway

end Runs

end RadioControl.Transfer
