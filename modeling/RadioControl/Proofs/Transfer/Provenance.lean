import Mathlib
import RadioControl.Proofs.Transfer.Span

/-!
# Where bytes come from

* `stored_value_provenance`: every write that is applied to a setting is made of the bytes of as
  many tuples as the setting has bytes, dealt with one directly after another. No tuple is used
  twice, and none of an abandoned transfer is used at all.
* `served_byte_provenance`: every byte that is served is a byte of the one value that the board gave
  when the transfer began, and the board is asked at no other time.

Both hold of every run from a fresh engine, and speak of its journal (`Journals`).
-/

namespace RadioControl.Transfer

/-! ## Places in a journal -/

/-- The events of a journal from place `j` on, up to place `i` and without it. -/
def stretch (log : List Event) (j i : Nat) : List Event := (log.take i).drop j

section Places

variable {policy : Policy} {log : List Event} {i j : Nat} {e : Event}

theorem getElem?_stretch {m : Nat} (he : log[m]? = some e) (hj : j ≤ m) (hi : m < i) :
    (stretch log j i)[m - j]? = some e := by
  unfold stretch
  rw [List.getElem?_drop, Nat.add_sub_cancel' hj, List.getElem?_take_of_lt hi, he]

theorem mem_stretch {m : Nat} (he : log[m]? = some e) (hj : j ≤ m) (hi : m < i) :
    e ∈ stretch log j i :=
  List.mem_of_getElem? (getElem?_stretch he hj hi)

/-- The first event of a stretch. -/
theorem getElem?_of_stretch_eq_cons {es : List Event} (h : stretch log j i = e :: es) :
    j < i ∧ log[j]? = some e := by
  have hj : (log.take i)[j]? = some e := by
    rw [← Nat.add_zero j, ← List.getElem?_drop]
    show (stretch log j i)[0]? = some e
    rw [h]
    rfl
  rw [List.getElem?_take] at hj
  split at hj
  · rename_i hlt
    exact ⟨hlt, hj⟩
  · cases hj

/-- The last event of a stretch. -/
theorem getElem?_of_getLast?_stretch (hi : i ≤ log.length)
    (h : (stretch log j i).getLast? = some e) : log[i - 1]? = some e := by
  unfold stretch at h
  rw [List.getLast?_drop, List.length_take_of_le hi] at h
  split at h
  · cases h
  · rename_i hj
    rwa [List.getLast?_eq_getElem?, List.length_take_of_le hi,
      List.getElem?_take_of_lt (by omega)] at h

theorem take_add_one_eq (he : log[i]? = some e) : log.take (i + 1) = log.take i ++ [e] := by
  rw [List.take_add_one, he]
  rfl

theorem stretch_add_one (he : log[i]? = some e) (hj : j ≤ i) :
    stretch log j (i + 1) = stretch log j i ++ [e] := by
  have hlen := List.length_take_of_le (Nat.le_of_lt (List.getElem?_eq_some_iff.mp he).1)
  unfold stretch
  rw [take_add_one_eq he, List.drop_append_of_le_length (by omega)]

theorem stretch_of_take_eq {earlier es : List Event} (h : log.take i = earlier ++ es) :
    stretch log earlier.length i = es := by
  unfold stretch
  rw [h, List.drop_left]

/-- The event at a place is explained by those before it. -/
theorem Accounted.explained (h : Accounted policy log) (he : log[i]? = some e) :
    Explained policy (log.take i) e := by
  refine h (log.take i) e (log.drop (i + 1)) ?_
  rw [List.append_cons, ← take_add_one_eq he, List.take_append_drop]

/-- A write that is applied ends a stretch with all its tuples. -/
theorem Accounted.wholeWrite {s : Setting} {v : UInt64} (h : Accounted policy log)
    (hi : log[i]? = some (.stored s v)) (hs : s ≠ .unmapped) :
    ∃ j ts, WholeWrite policy s v ts (stretch log j i) := by
  obtain ⟨earlier, span, ts, ht, hw⟩ := h.explained hi hs
  exact ⟨earlier.length, ts, (stretch_of_take_eq ht).symm ▸ hw⟩

/-- A byte that is served ends a stretch that begins right after a fetch. -/
theorem Accounted.readSpan {p : Progress} {t : Tuple} (h : Accounted policy log)
    (hi : log[i]? = some (.moved .read p t)) : ∃ j ts, j < i ∧
      log[j]? = some (.fetched p.setting p.value) ∧
      Span policy .read p.setting p.value (ts ++ [t]) (stretch log (j + 1) (i + 1)) ∧
      p.moved.toNat = ts.length ∧ (ts = [] ∨ ts.length < p.setting.width.toNat) := by
  obtain ⟨earlier, span, ts, ht, hs, hm, hk⟩ := h.explained hi
  obtain ⟨hj, hfetched⟩ := getElem?_of_stretch_eq_cons (stretch_of_take_eq ht)
  have hspan := stretch_of_take_eq (ht.trans (List.append_cons ..))
  rw [List.length_append, List.length_singleton] at hspan
  refine ⟨earlier.length, ts, hj, hfetched, ?_, hm, hk⟩
  rwa [stretch_add_one hi hj, hspan]

end Places

/-! ## The journal of a run -/

variable {β : Type} [Board β]

/-- The journal, one list of events for each input, is that of the run: it has its replies, what it
did to the board, the tuples of its frames and what was under way after each of them. -/
structure Journals (t : Transfer) (inputs : List (Input β)) (b : β) (journal : List (List Event)) :
    Prop where
  said : (t.feedAll inputs b).1.1 = journal.map replies
  board : Replays b journal.flatten (t.feedAll inputs b).2
  about : ∀ {n : Nat} {i : Input β}, inputs[n]? = some i → ∃ es, journal[n]? = some es ∧
    i.Notes (t.feedAll (inputs.take (n + 1)) b).1.2.activity es

theorem journals_recordAll (t : Transfer) (is : List (Input β)) (b : β) :
    t.Journals is b (t.recordAll is b).1.1 where
  said := by rw [feedAll_apply]
  board := by
    rw [feedAll_apply]
    exact recordAll_replays t is b
  about := recordAll_notes t is b

/-! ## Applied writes -/

/-- The write of `v` to the setting at place `i` of the journal is made of the tuples `ts`, which
were dealt with from place `j` on. -/
structure Makes (policy : Policy) (log : List Event) (j : Nat) (ts : List Tuple) (i : Nat)
    (s : Setting) (v : UInt64) : Prop where
  /-- They are the tuples of that stretch, all of them, and there is nothing else in it but the ends
  and beginnings of write frames and changes of the board. -/
  tuples : (stretch log j i).filterMap Event.tuple? = ts
  unbroken : ∀ e ∈ stretch log j i, e.Continues .write
  /-- The transfer begins with the first, and no other begins before the last. -/
  first : ∃ t, ts.head? = some t ∧ log[j]? = some (.moved .write (.start s 0) t) ∧
    Setting.atAddress t.address = s
  once : ∀ {m d p t}, j < m → m < i → log[m]? = some (.moved d p t) → p.moved ≠ 0
  rest : policy = .strict → ∀ {k t}, 0 < k → ts[k]? = some t → t.address = s.start + UInt8.ofNat k
  whole : ts.length = s.width.toNat
  value : v.toNat = LittleEndian.number (ts.map Tuple.data)
  /-- The last is dealt with right before the write, and by the frame that applies it. -/
  last : ∃ p t, log[i - 1]? = some (.moved .write p t)
  applied : log[i]? = some (.stored s v)
  done : log[i + 1]? = some (.handled .idle)

/-- The tuple at place `m` of the journal is one of those that the write at place `i` is made of. -/
def Contributes (policy : Policy) (log : List Event) (m i : Nat) : Prop :=
  ∃ j ts s v, Makes policy log j ts i s v ∧ j ≤ m ∧ m < i

/-- The write of which the tuple at place `m` is a part is abandoned at place `a`: the engine is
reset, a read frame arrives or another write begins, and nothing was applied before. -/
structure AbandonedAt (log : List Event) (m a : Nat) : Prop where
  later : m < a
  unapplied : ∀ {n s v}, m < n → n < a → log[n]? ≠ some (.stored s v)
  event : log[a]? = some .reset ∨ log[a]? = some (.arrived .read) ∨
    ∃ d p t, log[a]? = some (.moved d p t) ∧ p.moved = 0

theorem makes_of_wholeWrite {policy : Policy} {log : List Event} {j i : Nat} {s : Setting}
    {v : UInt64} {ts : List Tuple} (hi : log[i]? = some (.stored s v)) (ho : Orderly log)
    (hw : WholeWrite policy s v ts (stretch log j i)) : Makes policy log j ts i s v := by
  obtain ⟨hs, hlen, hv, p, t, hlast⟩ := hw
  obtain ⟨t₀, ts', es', rfl, hes, ht₀⟩ := hs.eq_cons
  have hle := Nat.le_of_lt (List.getElem?_eq_some_iff.mp hi).1
  refine ⟨hs.filterMap_tuple?, hs.continues, ⟨t₀, rfl, (getElem?_of_stretch_eq_cons hes).2, ht₀⟩,
    ?_, fun hp _ _ hk ht => hs.address_of_strict hp hk ht, hlen, hv,
    ⟨p, t, getElem?_of_getLast?_stretch hle hlast⟩, hi, ho.heeds hi⟩
  intro m d p t hj hm he hz
  exact hs.begins_once (Nat.sub_pos_of_lt hj) (getElem?_stretch he (Nat.le_of_lt hj) hm)
    (congrArg UInt8.toNat hz)

/-- A tuple is used for one write at most. -/
theorem Contributes.unique {policy : Policy} {log : List Event} {m i i' : Nat}
    (h : Contributes policy log m i) (h' : Contributes policy log m i') : i = i' := by
  -- The earlier write would stand in the stretch of the later one.
  have hle : ∀ {i i' : Nat}, Contributes policy log m i → Contributes policy log m i' → i' ≤ i := by
    rintro i i' ⟨j, ts, s, v, h, hj, hm⟩ ⟨j', ts', s', v', h', hj', hm'⟩
    by_contra hlt
    exact h'.unbroken _ (mem_stretch h.applied (Nat.le_of_lt (Nat.lt_of_le_of_lt hj' hm))
      (Nat.lt_of_not_le hlt))
  exact Nat.le_antisymm (hle h' h) (hle h h')

/-- No tuple of an abandoned write is used. -/
theorem AbandonedAt.not_contributes {policy : Policy} {log : List Event} {m a i : Nat}
    (h : AbandonedAt log m a) : ¬Contributes policy log m i := by
  rintro ⟨j, ts, s, v, hw, hj, hm⟩
  have hlater := h.later
  rcases Nat.lt_or_ge a i with hai | hia
  · have hin : ∀ {e : Event}, log[a]? = some e → e.Continues .write := fun he =>
      hw.unbroken _ (mem_stretch he (by omega) hai)
    rcases h.event with he | he | ⟨d, p, t, he, hz⟩
    · exact hin he
    · exact nomatch (hin he : Direction.read = .write)
    · exact hw.once (by omega) hai he hz
  · rcases Nat.lt_or_eq_of_le hia with hlt | rfl
    · exact h.unapplied hm hlt hw.applied
    · rcases h.event with he | he | ⟨d, p, t, he, -⟩ <;> cases hw.applied.symm.trans he

/-- **Provenance of every applied write.** In the journal of any run from a fresh engine,

* a value that is applied to a setting is the number that the bytes of as many tuples make as the
  setting has bytes (`Makes`): tuples of write frames, dealt with one directly after another, the
  first at an address of the setting, and for a strict engine the others at those of their bytes;
* a tuple is used for one write at most;
* a tuple of a write that is abandoned is used for none. -/
theorem stored_value_provenance (policy : Policy) (inputs : List (Input β)) (b : β) :
    let journal := ((fresh policy).recordAll inputs b).1.1
    let log := journal.flatten
    (fresh policy).Journals inputs b journal ∧
    (∀ i s v, log[i]? = some (.stored s v) → s ≠ .unmapped →
      ∃ j ts, Makes policy log j ts i s v ∧ v.toNat < 2 ^ (8 * s.width.toNat)) ∧
    (∀ m i i', Contributes policy log m i → Contributes policy log m i' → i = i') ∧
    (∀ m a i, AbandonedAt log m a → ¬Contributes policy log m i) := by
  intro journal log
  have ho : Orderly log := recordAll_orderly _ _ _
  have hc : Accounted policy log := (consistent_of_fresh policy inputs b).accounted
  refine ⟨journals_recordAll _ _ _, fun i s v hi hs => ?_, fun m i i' h h' => h.unique h',
    fun m a i h => h.not_contributes⟩
  obtain ⟨j, ts, hw⟩ := hc.wholeWrite hi hs
  refine ⟨j, ts, makes_of_wholeWrite hi ho hw, ?_⟩
  rw [LittleEndian.two_pow_eight_mul, hw.value, ← hw.whole, ← List.length_map Tuple.data]
  exact LittleEndian.number_lt _

/-! ## Served bytes -/

/-- The byte that is served at place `i` of the journal is number `k` of the transfer that begins
with the value that is fetched at place `j`. -/
structure Serves (policy : Policy) (log : List Event) (j k i : Nat) (p : Progress) (t : Tuple) :
    Prop where
  later : j < i
  fetched : log[j]? = some (.fetched p.setting p.value)
  /-- The first tuple names the setting, and no other transfer begins from there on. -/
  first : ∃ t₀, log[j + 1]? = some (.moved .read (.start p.setting p.value) t₀) ∧
    Setting.atAddress t₀.address = p.setting
  once : ∀ {m d q t}, j + 1 < m → m ≤ i → log[m]? = some (.moved d q t) → q.moved ≠ 0
  /-- Before this tuple the transfer has dealt with `k` tuples, with nothing else in between but the
  ends and beginnings of read frames and changes of the board. -/
  count : ((stretch log (j + 1) i).filterMap Event.tuple?).length = k
  unbroken : ∀ e ∈ stretch log (j + 1) i, e.Continues .read
  reply : (Event.moved .read p t).reply? =
    some ⟨t.address - p.setting.start, LittleEndian.digit p.value.toNat k⟩
  bound : p.setting ≠ .unmapped → k < p.setting.width.toNat
  done : k + 1 = p.setting.width.toNat → log[i + 1]? = some (.handled .idle)
  /-- An address of no setting is answered by one byte of ones. -/
  nowhere : p.setting = .unmapped →
    k = 0 ∧ (Event.moved .read p t).reply? = some ⟨t.address - p.setting.start, 0xFF⟩ ∧
      log[i + 1]? = some (.handled .idle)
  strict : policy = .strict → 0 < k → t.address - p.setting.start = UInt8.ofNat k

/-- Each event takes the board from one state that it goes through to the next. -/
theorem Replays.turns {log : List Event} {b b' : β} (h : Replays b log b') {i : Nat} {e : Event}
    (he : log[i]? = some e) : ∃ b₁ b₂ : β, e.Turns b₁ b₂ := by
  induction h generalizing i with
  | nil => cases he
  | @cons e' es b₁ b₂ b₃ ht _ ih =>
    cases i with
    | zero =>
      obtain rfl : e' = e := by simpa using he
      exact ⟨b₁, b₂, ht⟩
    | succ i => exact ih he

/-- After the last byte of a setting the frame ends, and nothing is under way. -/
theorem handled_of_last {log : List Event} {i : Nat} {p : Progress} {t : Tuple} (ho : Orderly log)
    (hi : log[i]? = some (.moved .read p t)) (hm : p.moved.toNat ≤ 8)
    (hw : p.setting.width.toNat ≤ p.moved.toNat + 1) : log[i + 1]? = some (.handled .idle) := by
  have ha := Progress.toNat_moved_advance hm
  refine ho.heeds hi (Progress.finished_iff.mpr ?_)
  rwa [Progress.setting_advance, ha]

/-- What is fetched from no setting. -/
theorem value_of_unmapped {log : List Event} {b b' : β} {j : Nat} {v : UInt64}
    (hr : Replays b log b') (hj : log[j]? = some (.fetched .unmapped v)) :
    v = Setting.unmappedValue := by
  obtain ⟨b₁, b₂, hf⟩ := hr.turns hj
  exact (congrArg Prod.fst hf).symm

theorem serves_of_moved {policy : Policy} {log : List Event} {b b' : β} {i : Nat} {p : Progress}
    {t : Tuple} (hi : log[i]? = some (.moved .read p t)) (ha : Accounted policy log)
    (ho : Orderly log) (hr : Replays b log b') : ∃ j k, Serves policy log j k i p t := by
  obtain ⟨j, ts, hj, hfetched, hs, hm, hk⟩ := ha.readSpan hi
  obtain ⟨t₀, _, _, -, hes, ht₀⟩ := hs.eq_cons
  have hsplit := stretch_add_one hi (Nat.succ_le_of_lt hj)
  have hm8 : p.moved.toNat ≤ 8 := by
    have h8 := p.setting.width_le_eight
    rcases hk with rfl | hk
    · exact hm ▸ Nat.zero_le _
    · omega
  have hreply : (Event.moved .read p t).reply? =
      some ⟨t.address - p.setting.start, LittleEndian.digit p.value.toNat ts.length⟩ := by
    rw [← hm, ← LittleEndian.byteAt_eq_digit]
    rfl
  have hend := handled_of_last ho hi hm8
  rw [hm] at hend
  refine ⟨j, ts.length, hj, hfetched, ⟨t₀, (getElem?_of_stretch_eq_cons hes).2, ht₀⟩, ?_, ?_, ?_,
    hreply, ?_, fun hw => hend (Nat.le_of_eq hw.symm), ?_, ?_⟩
  · intro m d q t' hjm hmi he hz
    exact hs.begins_once (Nat.sub_pos_of_lt hjm)
      (getElem?_stretch he (Nat.le_of_lt hjm) (Nat.lt_succ_of_le hmi)) (congrArg UInt8.toNat hz)
  · have htuples := hs.filterMap_tuple?
    rw [hsplit, List.filterMap_append] at htuples
    rw [(List.append_inj' htuples rfl).1]
  · intro e he
    exact hs.continues e (hsplit ▸ List.mem_append_left _ he)
  · intro hp
    rcases hk with rfl | hk
    · exact Setting.width_pos hp
    · exact hk
  · intro hp
    rw [hp] at hfetched hk hend
    obtain rfl : ts = [] := hk.resolve_right (Nat.not_lt_zero _)
    rw [value_of_unmapped hr hfetched] at hreply
    exact ⟨rfl, hreply, hend (Nat.zero_le _)⟩
  · intro hp hk
    rw [hs.address_of_strict hp hk List.getElem?_concat_length, UInt8.add_comm,
      UInt8.add_sub_cancel]

/-- A transfer of no byte yet has its value from right before. -/
theorem Serves.fetched_of_begun {policy : Policy} {log : List Event} {j k i : Nat} {p : Progress}
    {t : Tuple} (h : Serves policy log j k i p t) (hi : log[i]? = some (.moved .read p t))
    (hz : p.moved = 0) : log[i - 1]? = some (.fetched p.setting p.value) := by
  have hlater := h.later
  obtain rfl : i = j + 1 := by
    by_contra hne
    exact h.once (by omega) le_rfl hi hz
  exact h.fetched

/-- **Provenance of every served byte.** In the journal of any run from a fresh engine,

* the byte that answers a tuple of a read is a byte of the one value that the board gave when the
  transfer of the tuple began (`Serves`), at the place of the tuple in the transfer;
* the board is asked when a transfer begins, once, and at no other time. -/
theorem served_byte_provenance (policy : Policy) (inputs : List (Input β)) (b : β) :
    let journal := ((fresh policy).recordAll inputs b).1.1
    let log := journal.flatten
    (fresh policy).Journals inputs b journal ∧
    (∀ i p t, log[i]? = some (.moved .read p t) → ∃ j k, Serves policy log j k i p t) ∧
    (∀ j s v, log[j]? = some (.fetched s v) → ∃ t,
      log[j + 1]? = some (.moved .read (.start s v) t) ∧ Setting.atAddress t.address = s) ∧
    (∀ i (p : Progress) t, log[i]? = some (.moved .read p t) → p.moved = 0 →
      0 < i ∧ log[i - 1]? = some (.fetched p.setting p.value)) := by
  intro journal log
  have hj := journals_recordAll (fresh policy) inputs b
  have ho : Orderly log := recordAll_orderly _ _ _
  have hc : Accounted policy log := (consistent_of_fresh policy inputs b).accounted
  refine ⟨hj, fun i p t hi => serves_of_moved hi hc ho hj.board, fun j s v hj => ho.heeds hj,
    fun i p t hi hz => ?_⟩
  obtain ⟨j, k, hs⟩ := serves_of_moved hi hc ho hj.board
  exact ⟨Nat.zero_lt_of_lt hs.later, hs.fetched_of_begun hi hz⟩

end RadioControl.Transfer
