import Mathlib
import RadioControl.Proofs.Transfer.Cut
import RadioControl.Proofs.Transfer.Steps

/-!
# How much of a frame is answered

* `run_trust`: an engine that trusts the addresses answers as many tuples of a frame as the transfer
  has bytes left (`remaining`), if there are so many, and then it has nothing under way.
* `exists_parts`: a strict engine may begin again at any tuple. It answers the first tuples of a
  frame, each for the setting that its address names; the first tuple of a write that names none
  ends the frame without a reply (`Parts`). It stops with the first tuple that leaves nothing under
  way, and ignores the others (`StopsAfter`).
* `data_of_write`: replies to a write have no data.
-/

namespace RadioControl

/-- The address of a tuple, counted from the start of the setting that it names. -/
def Tuple.relative (t : Tuple) : UInt8 := t.address - (Setting.atAddress t.address).start

namespace Transfer

/-! ## Without looking at the addresses -/

/-- How many tuples a frame can have answered before the transfer is over: the bytes that are left
of the one that goes on, or those of the setting that the first address names. A read of no setting
is answered once. -/
def remaining (t : Transfer) (direction : Direction) (first : UInt8) : Nat :=
  match t.activity.inDirection direction with
  | some p => p.setting.width.toNat - p.moved.toNat
  | none =>
    if direction = .read ∧ Setting.atAddress first = .unmapped then 1
    else (Setting.atAddress first).width.toNat

section Trust

variable {β : Type} [Board β] {p : Progress} {t : Transfer} {direction : Direction}

theorem serve_trust_cons (p : Progress) (t : Tuple) (ts : List Tuple) (b : β) :
    serve .trust (some p) (t :: ts) b =
      if p.advance.Finished then (([p.reply t.address p.head], none), b)
      else
        let r := serve .trust (some p.advance) ts b
        ((p.reply t.address p.head :: r.1.1, r.1.2), r.2) :=
  serve_cons_apply ..

/-- A read answers at least one tuple, if there is one. -/
theorem serve_trust (h : p.moved.toNat ≤ 8) (ts : List Tuple) (b : β) :
    let r := serve .trust (some p) ts b
    let left := max 1 (p.setting.width.toNat - p.moved.toNat)
    r.1.1.length = min ts.length left ∧ (r.1.2 = none ↔ left ≤ ts.length) := by
  intro r left
  induction ts generalizing p b with
  | nil =>
    refine ⟨(Nat.zero_min _).symm, fun h => (nomatch h), fun h => ?_⟩
    exact absurd (Nat.le_trans (Nat.le_max_left ..) h) (Nat.not_succ_le_zero 0)
  | cons t ts ih =>
    have hm := Progress.toNat_moved_advance h
    have h8 := p.setting.width_le_eight
    have hr : r = serve .trust (some p) (t :: ts) b := rfl
    rw [serve_trust_cons] at hr
    by_cases hf : p.advance.Finished
    · have hle := Progress.finished_iff.mp hf
      rw [Progress.setting_advance] at hle
      rw [if_pos hf] at hr
      rw [hr]
      simp only [List.length_cons, List.length_nil, true_iff]
      omega
    · have hlt := Progress.not_finished_iff.mp hf
      rw [Progress.setting_advance] at hlt
      obtain ⟨hlen, hleft⟩ := ih (p := p.advance) (by omega) b
      rw [Progress.setting_advance] at hlen hleft
      rw [if_neg hf] at hr
      rw [hr]
      simp only [List.length_cons, hlen, hleft]
      omega

theorem collect_trust (h : p.moved.toNat ≤ 8) (ts : List Tuple) :
    let r := collect .trust (some p) ts
    let left := p.setting.width.toNat - p.moved.toNat
    r.1.length = min ts.length left ∧ ∃ q, r.2 = some q ∧ (q.Finished ↔ left ≤ ts.length) := by
  intro r left
  induction ts generalizing p with
  | nil =>
    refine ⟨(Nat.zero_min _).symm, p, rfl, ?_⟩
    rw [Progress.finished_iff, List.length_nil, Nat.le_zero, Nat.sub_eq_zero_iff_le]
  | cons t ts ih =>
    have hr : r = collect .trust (some p) (t :: ts) := rfl
    have hopen : openWrite .trust (some p) t.address = p := rfl
    have hm := Progress.toNat_moved_put t.data h
    have h8 := p.setting.width_le_eight
    rw [collect, hopen] at hr
    by_cases hf : p.Finished
    · have hle := Progress.finished_iff.mp hf
      rw [hr]
      simp only [if_pos hf]
      refine ⟨?_, p, rfl, ?_⟩
      · simp only [List.length_nil, List.length_cons]
        omega
      · simp only [hf, List.length_cons, true_iff]
        omega
    · have hlt := Progress.not_finished_iff.mp hf
      by_cases hw : (p.put t.data).Finished
      · have hle := Progress.finished_iff.mp hw
        rw [Progress.setting_put] at hle
        rw [hr]
        simp only [if_neg hf, if_pos hw]
        refine ⟨?_, _, rfl, ?_⟩
        · simp only [List.length_nil, List.length_cons]
          omega
        · simp only [hw, List.length_cons, true_iff]
          omega
      · obtain ⟨hlen, q, hq, hdone⟩ := ih (p := p.put t.data) (by omega)
        rw [Progress.setting_put] at hlen hdone
        rw [hr]
        simp only [if_neg hf, if_neg hw, List.length_cons, hlen, hq]
        refine ⟨by omega, q, rfl, hdone.trans ?_⟩
        omega

theorem serve_trust_none (x : Tuple) (xs : List Tuple) (b : β) :
    serve .trust none (x :: xs) b =
      let f := (Setting.atAddress x.address).fetch b
      serve .trust (some (.start (.atAddress x.address) f.1)) (x :: xs) f.2 := by
  rw [serve_cons_apply]
  exact (serve_trust_cons ..).symm

theorem collect_trust_none (x : Tuple) (xs : List Tuple) :
    collect .trust none (x :: xs) =
      collect .trust (some (.start (.atAddress x.address) 0)) (x :: xs) := rfl

theorem remaining_of_some (h : t.activity.inDirection direction = some p) (first : UInt8) :
    t.remaining direction first = p.setting.width.toNat - p.moved.toNat := by
  unfold remaining
  rw [h]

theorem remaining_read_of_none (h : t.activity.reading? = none) (first : UInt8) :
    t.remaining .read first = max 1 (Setting.atAddress first).width.toNat := by
  have hnone : t.activity.inDirection .read = none := h
  unfold remaining
  rw [hnone]
  by_cases hs : Setting.atAddress first = .unmapped
  · simp only [hs, and_self, if_true]
    rfl
  · have hw := Setting.width_pos hs
    simp only [hs, and_false, if_false]
    omega

theorem remaining_write_of_none (h : t.activity.writing? = none) (first : UInt8) :
    t.remaining .write first = (Setting.atAddress first).width.toNat := by
  have hnone : t.activity.inDirection .write = none := h
  unfold remaining
  rw [hnone]
  exact if_neg fun h => nomatch h.1

/-- An engine that trusts the addresses. -/
theorem run_trust (ht : Reachable β .trust t) (direction : Direction) (x : Tuple) (xs : List Tuple)
    (b : β) :
    let r := t.run direction (x :: xs) b
    let left := t.remaining direction x.address
    r.1.1.length = min (x :: xs).length left ∧
      (r.1.2.activity = .idle ↔ left ≤ (x :: xs).length) := by
  intro r left
  have hpolicy := ht.policy_eq
  cases direction with
  | read =>
    show (serve t.policy t.activity.reading? (x :: xs) b).1.1.length = _ ∧
      (Activity.ofRead (serve t.policy t.activity.reading? (x :: xs) b).1.2 = .idle ↔ _)
    rw [hpolicy, ofRead_eq_idle_iff]
    cases hp : t.activity.reading? with
    | some p =>
      have hu := ht.underway (.inl hp)
      have hleft : left = max 1 (p.setting.width.toNat - p.moved.toNat) := by
        have hin : t.activity.inDirection .read = some p := hp
        have hrem : left = _ := remaining_of_some hin x.address
        have := hu.unfinished
        omega
      rw [hleft]
      exact serve_trust (hu.unfinished.le.trans p.setting.width_le_eight) (x :: xs) b
    | none =>
      rw [show left = _ from remaining_read_of_none hp x.address, serve_trust_none]
      exact serve_trust (p := .start ..) (Nat.zero_le 8) (x :: xs) _
  | write =>
    show (collect t.policy t.activity.writing? (x :: xs)).1.length = _ ∧
      ((settle (collect t.policy t.activity.writing? (x :: xs)).2 b).1 = .idle ↔ _)
    rw [hpolicy]
    cases hp : t.activity.writing? with
    | some p =>
      have hu := ht.underway (.inr hp)
      obtain ⟨hlen, q, hq, hdone⟩ :=
        collect_trust (hu.unfinished.le.trans p.setting.width_le_eight) (x :: xs)
      have hin : t.activity.inDirection .write = some p := hp
      have hrem : left = _ := remaining_of_some hin x.address
      rw [hrem, hq, settle_eq_idle_iff]
      exact ⟨hlen, hdone⟩
    | none =>
      rw [show left = _ from remaining_write_of_none hp x.address, collect_trust_none]
      obtain ⟨hlen, q, hq, hdone⟩ :=
        collect_trust (p := .start (.atAddress x.address) 0) (Nat.zero_le 8) (x :: xs)
      rw [hq, settle_eq_idle_iff]
      exact ⟨hlen, hdone⟩

end Trust

/-! ## Beginning anew -/

/-- What the events of a frame make of its tuples: the first ones are answered, each at its address
within the setting that it names; the next one, of a write, may name none and have no reply; the
others are not dealt with. -/
structure Parts (direction : Direction) (ts : List Tuple) (es : List Event)
    (answered dropped ignored : List Tuple) : Prop where
  whole : ts = answered ++ dropped ++ ignored
  dealt : es.filterMap Event.tuple? = answered ++ dropped
  replies : (replies es).map Tuple.address = answered.map Tuple.relative
  named : direction = .write → ∀ x ∈ answered, Setting.atAddress x.address ≠ .unmapped
  unnamed : dropped = [] ∨
    direction = .write ∧ ∃ x, dropped = [x] ∧ Setting.atAddress x.address = .unmapped

/-- Of a frame, the engine deals with the tuples `done` and with no other: the last of them is the
first one after which nothing is under way, or else the last one of the frame. -/
structure StopsAfter {β : Type} [Board β] (t : Transfer) (direction : Direction)
    (done ignored : List Tuple) (b : β) : Prop where
  same : t.record (.frame direction (done ++ ignored)) b = t.record (.frame direction done) b
  begins : ignored ≠ [] → done ≠ []
  goes_on : ∀ j, 0 < j → j < done.length →
    (t.record (.frame direction (done.take j)) b).1.2.activity ≠ .idle
  stops : ignored ≠ [] → (t.record (.frame direction done) b).1.2.activity = .idle

theorem replies_eq_nil {es : List Event} (h : es.filterMap Event.tuple? = []) :
    replies es = [] := by
  refine List.filterMap_eq_nil_iff.mpr fun e he => ?_
  have hnone := List.filterMap_eq_nil_iff.mp h e he
  cases e with
  | moved d p t => cases hnone
  | _ => rfl

namespace Parts

variable {direction : Direction} {ts answered dropped ignored : List Tuple} {es : List Event}

theorem none (direction : Direction) (ts : List Tuple) : Parts direction ts [] [] [] ts :=
  ⟨rfl, rfl, rfl, fun _ _ h => absurd h List.not_mem_nil, .inl rfl⟩

/-- Events that are not about tuples. -/
theorem wrap (h : Parts direction ts es answered dropped ignored) (before after : List Event)
    (hb : before.filterMap Event.tuple? = []) (ha : after.filterMap Event.tuple? = []) :
    Parts direction ts (before ++ (es ++ after)) answered dropped ignored where
  whole := h.whole
  dealt := by rw [List.filterMap_append, List.filterMap_append, hb, ha, h.dealt, List.append_nil,
    List.nil_append]
  replies := by rw [replies_append, replies_append, replies_eq_nil hb, replies_eq_nil ha,
    List.append_nil, List.nil_append, h.replies]
  named := h.named
  unnamed := h.unnamed

/-- A tuple that is answered for the setting that it names. -/
theorem cons (h : Parts direction ts es answered dropped ignored) {p : Progress} {x : Tuple}
    (hp : p.setting = Setting.atAddress x.address)
    (hw : direction = .write → p.moved.toNat < p.setting.width.toNat) :
    Parts direction (x :: ts) (.moved direction p x :: es) (x :: answered) dropped ignored where
  whole := congrArg _ h.whole
  dealt := congrArg (x :: ·) h.dealt
  replies := by
    have hreply : (Event.moved direction p x).reply?.map Tuple.address = some x.relative := by
      unfold Tuple.relative
      rw [← hp]
      cases direction with
      | read => rfl
      | write =>
        rw [Event.reply?, if_neg (Progress.not_finished_iff.mpr (hw rfl))]
        rfl
    obtain ⟨r, hr, hrx⟩ := Option.map_eq_some_iff.mp hreply
    rw [replies_cons, hr, List.map_append, h.replies]
    exact congrArg (· :: answered.map Tuple.relative) hrx
  named hd y hy := by
    rcases List.mem_cons.mp hy with rfl | hy
    · intro hs
      have hlt := hw hd
      rw [hp, hs] at hlt
      exact Nat.not_lt_zero _ hlt
    · exact h.named hd y hy
  unnamed := h.unnamed

end Parts

section Strict

variable {β : Type} [Board β] {t : Transfer} {p? : Option Progress} {p : Progress} {x : Tuple}
  {ts : List Tuple}

/-- What a strict engine keeps at an address belongs to the setting there. -/
theorem setting_of_keep_strict (hp? : ∀ q, p? = some q → q.moved.toNat < q.setting.width.toNat)
    (h : Policy.strict.keep p? x.address = some p) :
    p.setting = .atAddress x.address ∧ p.moved.toNat < p.setting.width.toNat := by
  obtain ⟨hp, hnext⟩ := Policy.keep_eq_some_iff.mp h
  have hlt := hp? p hp
  exact ⟨by rw [← hnext rfl, Progress.atAddress_next hlt], hlt⟩

theorem recordOpen_of_strict (hp? : ∀ q, p? = some q → q.moved.toNat < q.setting.width.toNat)
    {b b' : β} {opening : List Event}
    (h : recordOpen .strict p? x.address b = ((opening, p), b')) :
    p.setting = .atAddress x.address ∧ opening.filterMap Event.tuple? = [] := by
  rcases recordOpen_cases h with ⟨hk, rfl, -⟩ | ⟨-, v, -, rfl, rfl⟩
  · exact ⟨(setting_of_keep_strict hp? hk).1, rfl⟩
  · exact ⟨rfl, rfl⟩

/-- A write has no byte to take only if it begins at no setting. -/
theorem openWrite_of_strict (hp? : ∀ q, p? = some q → q.moved.toNat < q.setting.width.toNat) :
    (openWrite .strict p? x.address).setting = .atAddress x.address ∧
      ((openWrite .strict p? x.address).Finished → Setting.atAddress x.address = .unmapped) := by
  rcases openWrite_cases .strict p? x.address with hk | ⟨-, ho⟩
  · obtain ⟨hs, hlt⟩ := setting_of_keep_strict hp? hk
    exact ⟨hs, fun hf => absurd hf (Progress.not_finished_iff.mpr hlt)⟩
  · rw [ho]
    refine ⟨rfl, fun hf => ?_⟩
    by_contra hs
    exact absurd (Setting.width_pos hs) (Nat.not_lt.mpr (Progress.finished_iff.mp hf))

theorem recordServe_parts (hp? : ∀ q, p? = some q → q.moved.toNat < q.setting.width.toNat)
    (ts : List Tuple) (b : β) :
    let r := recordServe .strict p? ts b
    ∃ answered ignored, Parts .read ts r.1.1 answered [] ignored ∧
      recordServe .strict p? answered b = r ∧ (ignored ≠ [] → r.1.2 = none) ∧
      (ignored ≠ [] → answered ≠ []) ∧
      ∀ j, 0 < j → j < answered.length →
        (recordServe .strict p? (answered.take j) b).1.2 ≠ none := by
  intro r
  induction ts generalizing p? b with
  | nil =>
    exact ⟨[], [], .none .read [], rfl, fun h => absurd rfl h, fun h => absurd rfl h,
      fun j _ hj => absurd hj (Nat.not_lt_zero j)⟩
  | cons x ts ih =>
    rcases ho : recordOpen .strict p? x.address b with ⟨⟨opening, p⟩, b'⟩
    have hset := recordOpen_of_strict hp? ho
    have hr : r = recordServe .strict p? (x :: ts) b := rfl
    rw [recordServe_cons _ p? x ts b ho] at hr
    by_cases hf : p.advance.Finished
    · -- The last byte of a setting: the other tuples are ignored.
      rw [if_pos hf] at hr
      refine ⟨[x], ts, ?_, ?_, fun _ => by rw [hr], fun _ => List.cons_ne_nil _ _,
        fun j h0 hj => ?_⟩
      · have hone := ((Parts.none .read ts).cons hset.1 nofun).wrap opening [] hset.2 rfl
        rw [hr]
        exact hone
      · rw [recordServe_cons _ p? x [] b ho, if_pos hf, hr]
      · rw [List.length_singleton] at hj
        omega
    · rw [if_neg hf] at hr
      have hnext : ∀ q, some p.advance = some q → q.moved.toNat < q.setting.width.toNat :=
        fun _ hq => Option.some.inj hq ▸ Progress.not_finished_iff.mp hf
      obtain ⟨answered, ignored, hparts, hsame, hdone, -, hgo⟩ := ih hnext b'
      refine ⟨x :: answered, ignored, ?_, ?_, fun hi => by rw [hr]; exact hdone hi,
        fun _ => List.cons_ne_nil _ _, fun j h0 hj => ?_⟩
      · have hcons := (hparts.cons hset.1 nofun).wrap opening [] hset.2 rfl
        rw [List.append_nil] at hcons
        rw [hr]
        exact hcons
      · rw [recordServe_cons _ p? x answered b ho, if_neg hf, hsame, hr]
      · obtain ⟨j, rfl⟩ := Nat.exists_eq_add_one.mpr h0
        rw [List.take_succ_cons, recordServe_cons _ p? x _ b ho, if_neg hf]
        rcases Nat.eq_zero_or_pos j with rfl | hpos
        · exact Option.some_ne_none _
        · exact hgo j hpos (Nat.lt_of_succ_lt_succ hj)

theorem recordCollect_parts (hp? : ∀ q, p? = some q → q.moved.toNat < q.setting.width.toNat)
    (ts : List Tuple) :
    let r := recordCollect .strict p? ts
    ∃ answered dropped ignored, Parts .write ts r.1 answered dropped ignored ∧
      recordCollect .strict p? (answered ++ dropped) = r ∧
      (dropped ++ ignored ≠ [] → ∃ q, r.2 = some q ∧ q.Finished) ∧
      (ignored ≠ [] → answered ++ dropped ≠ []) ∧
      ∀ j, 0 < j → j < (answered ++ dropped).length → ∃ q,
        (recordCollect .strict p? ((answered ++ dropped).take j)).2 = some q ∧ ¬q.Finished := by
  intro r
  induction ts generalizing p? with
  | nil =>
    exact ⟨[], [], [], .none .write [], rfl, fun h => absurd rfl h, fun h => absurd rfl h,
      fun j _ hj => absurd hj (Nat.not_lt_zero j)⟩
  | cons x ts ih =>
    let p := openWrite .strict p? x.address
    obtain ⟨hset, hbegun⟩ := openWrite_of_strict hp? (x := x)
    have hr : r = recordCollect .strict p? (x :: ts) := rfl
    rw [recordCollect] at hr
    by_cases hf : p.Finished
    · -- The tuple names no setting: it ends the frame, and has no reply.
      rw [if_pos hf] at hr
      have hnone : replies [.moved .write p x] = [] := by
        rw [replies_cons, Event.reply?, if_pos hf]
        rfl
      refine ⟨[], [x], ts, ?_, ?_, fun _ => ⟨p, by rw [hr], hf⟩, fun _ => List.cons_ne_nil _ _,
        fun j h0 hj => ?_⟩
      · rw [hr]
        exact ⟨rfl, rfl, congrArg (List.map Tuple.address) hnone,
          fun _ _ h => absurd h List.not_mem_nil, .inr ⟨rfl, x, rfl, hbegun hf⟩⟩
      · rw [List.nil_append, recordCollect, if_pos hf, hr]
      · rw [List.nil_append, List.length_singleton] at hj
        omega
    · rw [if_neg hf] at hr
      have hlt : Direction.write = .write → p.moved.toNat < p.setting.width.toNat :=
        fun _ => Progress.not_finished_iff.mp hf
      by_cases hw : (p.put x.data).Finished
      · -- The last byte of a setting, which is stored after the loop.
        rw [if_pos hw] at hr
        refine ⟨[x], [], ts, ?_, ?_, fun _ => ⟨p.put x.data, by rw [hr], hw⟩,
          fun _ => List.cons_ne_nil _ _, fun j h0 hj => ?_⟩
        · rw [hr]
          exact (Parts.none .write ts).cons hset hlt
        · rw [List.append_nil, recordCollect, if_neg hf, if_pos hw, hr]
        · rw [List.append_nil, List.length_singleton] at hj
          omega
      · rw [if_neg hw] at hr
        have hnext : ∀ q, some (p.put x.data) = some q → q.moved.toNat < q.setting.width.toNat :=
          fun _ hq => Option.some.inj hq ▸ Progress.not_finished_iff.mp hw
        obtain ⟨answered, dropped, ignored, hparts, hsame, hdone, -, hgo⟩ := ih hnext
        refine ⟨x :: answered, dropped, ignored, ?_, ?_, fun hi => ?_,
          fun _ => List.cons_ne_nil _ _, fun j h0 hj => ?_⟩
        · rw [hr]
          exact hparts.cons hset hlt
        · rw [List.cons_append, recordCollect, if_neg hf, if_neg hw, hsame, hr]
        · obtain ⟨q, hq, hqf⟩ := hdone hi
          exact ⟨q, by rw [hr]; exact hq, hqf⟩
        · obtain ⟨j, rfl⟩ := Nat.exists_eq_add_one.mpr h0
          rw [List.cons_append, List.take_succ_cons, recordCollect, if_neg hf, if_neg hw]
          rcases Nat.eq_zero_or_pos j with rfl | hpos
          · exact ⟨p.put x.data, rfl, hw⟩
          · exact hgo j hpos (Nat.lt_of_succ_lt_succ hj)

/-- A strict engine. -/
theorem exists_parts (ht : Reachable β .strict t) (direction : Direction) (ts : List Tuple)
    (b : β) :
    let r := t.record (.frame direction ts) b
    ∃ answered dropped ignored, Parts direction ts r.1.1 answered dropped ignored ∧
      t.StopsAfter direction (answered ++ dropped) ignored b ∧
      (dropped ≠ [] → r.1.2.activity = .idle) := by
  have hpolicy := ht.policy_eq
  cases direction with
  | read =>
    obtain ⟨answered, ignored, hparts, hsame, hdone, hnil, hgo⟩ :=
      recordServe_parts (fun q hq => (ht.underway (.inl hq)).unfinished) ts b
    have hwhole : ts = answered ++ ignored := by simpa using hparts.whole
    refine ⟨answered, [], ignored, ?_, ⟨?_, ?_, fun j h0 hj => ?_, fun hi => ?_⟩, nofun⟩
    · rw [record_read_apply, hpolicy]
      exact hparts.wrap [_] [_] rfl rfl
    · rw [List.append_nil, ← hwhole, record_read_apply, record_read_apply, hpolicy, hsame]
    · rwa [List.append_nil]
    · rw [List.append_nil] at hj ⊢
      rw [record_read_apply, hpolicy]
      exact mt ofRead_eq_idle_iff.mp (hgo j h0 hj)
    · rw [List.append_nil, record_read_apply, hpolicy, hsame]
      exact ofRead_eq_idle_iff.mpr (hdone hi)
  | write =>
    obtain ⟨answered, dropped, ignored, hparts, hsame, hdone, hnil, hgo⟩ :=
      recordCollect_parts (fun q hq => (ht.underway (.inr hq)).unfinished) ts
    have hwhole : ts = answered ++ dropped ++ ignored := hparts.whole
    have hidle : dropped ++ ignored ≠ [] →
        (t.record (.frame .write ts) b).1.2.activity = .idle := by
      intro hi
      obtain ⟨q, hq, hf⟩ := hdone hi
      rw [record_write_apply, hpolicy]
      simp only [hq, recordSettle_of_finished hf]
    have hrecord : t.record (.frame .write (answered ++ dropped)) b =
        t.record (.frame .write ts) b := by
      rw [record_write_apply, record_write_apply, hpolicy, hsame]
    refine ⟨answered, dropped, ignored, ?_, ⟨?_, hnil, fun j h0 hj => ?_, fun hi => ?_⟩,
      fun hd => ?_⟩
    · rw [record_write_apply, hpolicy]
      refine hparts.wrap [_] (_ ++ [_]) rfl ?_
      rw [List.filterMap_append, (recordSettle_notes _ b).1]
      rfl
    · rw [← hwhole, hrecord]
    · obtain ⟨q, hq, hf⟩ := hgo j h0 hj
      rw [record_write_apply, hpolicy]
      simp only [hq, recordSettle_of_not_finished hf]
      exact fun h => nomatch h
    · rw [hrecord]
      exact hidle fun h => hi (List.append_eq_nil_iff.mp h).2
    · exact hidle fun h => hd (List.append_eq_nil_iff.mp h).1

end Strict

/-! ## Data -/

section Data

variable {β : Type} [Board β] {t : Transfer} {policy : Policy} {x : Tuple}

theorem data_of_collect (p? : Option Progress) (ts : List Tuple) :
    ∀ y ∈ (collect policy p? ts).1, y.data = 0 := by
  induction ts generalizing p? with
  | nil => exact fun y hy => nomatch hy
  | cons x ts ih =>
    intro y hy
    rw [collect] at hy
    split at hy
    · cases hy
    · split at hy
      · rw [List.mem_singleton.mp hy]
        rfl
      · rcases List.mem_cons.mp hy with rfl | hy
        · rfl
        · exact ih _ y hy

/-- The replies to a write have no data. -/
theorem data_of_write (t : Transfer) (ts : List Tuple) (b : β) :
    ∀ y ∈ (t.run .write ts b).1.1, y.data = 0 :=
  data_of_collect _ ts

/-- A read that begins at no setting. -/
theorem run_read_of_unmapped (ht : t.activity.reading? = none)
    (hx : Setting.atAddress x.address = .unmapped) (xs : List Tuple) (b : β) :
    (t.run .read (x :: xs) b).1.1 = [⟨x.address + 1, 0xFF⟩] := by
  have hopen : openRead t.policy t.activity.reading? x.address b =
      (.start .unmapped Setting.unmappedValue, b) := by
    rw [openRead, ht, Policy.keep_none, hx]
    rfl
  have hf : (Progress.start .unmapped Setting.unmappedValue).advance.Finished := by decide
  have hsub : x.address - 255 = x.address + 1 :=
    forall_byte (P := fun a => a - 255 = a + 1) (by decide +kernel) x.address
  rw [read_apply, serve_cons_apply, hopen]
  simp only [if_pos hf]
  exact congrArg (fun a => [(⟨a, 0xFF⟩ : Tuple)]) hsub

end Data

end Transfer

end RadioControl
