import Mathlib
import RadioControl.Board.Memory
import RadioControl.Proofs.Transfer.Span

/-!
# Cutting a frame in two

A frame can be sent as two, its first tuples in one and the others in the next. The loops of the
engine stop only with the tuple that finishes a transfer, and as long as they have not stopped they
hold all that they know in the progress that is left:

* `serve_append_of_some`, `collect_append_of_open`: a loop that has not stopped goes on with the
  other tuples as a second frame would.
* `serve_append_of_none`, `collect_append_of_finished`: a loop that has stopped ignores them.
* `call_cut`: so the two frames have the effect of the one, unless the first finishes a transfer.
-/

namespace RadioControl

/-! ## Slots -/

namespace Request

/-- The tuples of a request, and those of one that has them moved to the front. -/
theorem tuples_eq_append {q rest : Request} {n j : Nat} (hj : j ≤ n)
    (h : ∀ i < n - j, rest.tuple? i = q.tuple? (j + i)) :
    q.tuples n = q.tuples j ++ rest.tuples (n - j) := by
  have hd : (q.tuples n).drop j = rest.tuples (n - j) := by
    apply List.ext_getElem?
    intro i
    unfold tuples
    rw [List.getElem?_drop, List.getElem?_take, List.getElem?_take, Vector.getElem?_toList,
      Vector.getElem?_toList]
    by_cases hi : i < n - j
    · rw [if_pos hi, if_pos (by omega)]
      exact (h i hi).symm
    · rw [if_neg hi, if_neg (by omega)]
  have ht : (q.tuples n).take j = q.tuples j := by
    unfold tuples
    rw [List.take_take, Nat.min_eq_left hj]
  rw [← hd, ← ht, List.take_append_drop]

theorem length_tuples (q : Request) {n : Nat} (h : n ≤ Frame.slots) : (q.tuples n).length = n := by
  have h7 : n ≤ 7 := h
  unfold tuples
  simpa using h7

end Request

namespace Response

theorem tuple?_eq_none {r : Response} {i : Nat} (hi : Frame.slots ≤ i) : r.tuple? i = none :=
  Vector.getElem?_eq_none hi

theorem tuple?_zero {i : Nat} (hi : i < Frame.slots) : zero.tuple? i = some .zero := by
  have h7 : i < 7 := hi
  simp [tuple?, zero, Payload.zero, h7]

/-- Replies after the first `j` are `j` slots further on. -/
theorem tuple?_fill_append {preset later : Response} {as bs : List Tuple} {i j : Nat}
    (hj : as.length = j) (hi : j + i < Frame.slots)
    (hl : later.tuple? i = preset.tuple? (j + i)) :
    (preset.fill (as ++ bs)).tuple? (j + i) = (later.fill bs).tuple? i := by
  have h7 : j + i < 7 := hi
  have hi7 : i < 7 := by omega
  have hslot : later.payload[i] = preset.payload[j + i] := by
    simpa [tuple?, hi7, h7] using hl
  rw [tuple?_fill _ _ _ h7, tuple?_fill _ _ _ hi7, List.getElem?_append_right (by omega), hj,
    Nat.add_sub_cancel_left, hslot]

theorem tuple?_fill_append_left {preset : Response} {as bs : List Tuple} {i : Nat}
    (hi : i < as.length) : (preset.fill (as ++ bs)).tuple? i = (preset.fill as).tuple? i := by
  rcases Nat.lt_or_ge i 7 with h7 | h7
  · rw [tuple?_fill _ _ _ h7, tuple?_fill _ _ _ h7, List.getElem?_append_left hi]
  · rw [tuple?_eq_none h7, tuple?_eq_none h7]

/-- The slots after the replies keep what they held. -/
theorem tuple?_fill_of_le {preset : Response} {ts : List Tuple} {i : Nat} (hi : ts.length ≤ i) :
    (preset.fill ts).tuple? i = preset.tuple? i := by
  rcases Nat.lt_or_ge i 7 with h7 | h7
  · rw [tuple?_fill _ _ _ h7, List.getElem?_eq_none hi]
    simp [tuple?, h7]
  · rw [tuple?_eq_none h7, tuple?_eq_none h7]

end Response

namespace Transfer

/-! ## The loops -/

section Read

variable {β : Type} [Board β] {policy : Policy}

theorem serve_cons_apply (policy : Policy) (p? : Option Progress) (t : Tuple) (ts : List Tuple)
    (b : β) : serve policy p? (t :: ts) b =
      let o := openRead policy p? t.address b
      let reply := o.1.reply t.address o.1.head
      if o.1.advance.Finished then (([reply], none), o.2)
      else
        let r := serve policy (some o.1.advance) ts o.2
        ((reply :: r.1.1, r.1.2), r.2) := by
  rw [serve, bind_apply]
  by_cases hf : (openRead policy p? t.address b).1.advance.Finished
  · simp only [if_pos hf]
    rfl
  · simp only [if_neg hf]
    rfl

theorem length_serve_le (p? : Option Progress) (ts : List Tuple) (b : β) :
    (serve policy p? ts b).1.1.length ≤ ts.length := by
  induction ts generalizing p? b with
  | nil => exact Nat.le_refl 0
  | cons t ts ih =>
    rw [serve_cons_apply]
    by_cases hf : (openRead policy p? t.address b).1.advance.Finished
    · simp only [if_pos hf]
      exact Nat.succ_le_succ (Nat.zero_le _)
    · simp only [if_neg hf]
      exact Nat.succ_le_succ (ih _ _)

/-- A read that has stopped ignores the other tuples of its frame. -/
theorem serve_append_of_none {p? : Option Progress} {as : List Tuple} (has : as ≠ []) {b : β}
    (h : (serve policy p? as b).1.2 = none) (bs : List Tuple) :
    serve policy p? (as ++ bs) b = serve policy p? as b := by
  induction as generalizing p? b with
  | nil => exact absurd rfl has
  | cons a as ih =>
    rw [serve_cons_apply] at h
    rw [List.cons_append, serve_cons_apply, serve_cons_apply]
    by_cases hf : (openRead policy p? a.address b).1.advance.Finished
    · simp only [if_pos hf]
    · simp only [if_neg hf] at h ⊢
      have hne : as ≠ [] := by
        rintro rfl
        cases h
      rw [ih hne h]

/-- A read that has not stopped has answered every tuple, and goes on with the others. -/
theorem serve_append_of_some {p? : Option Progress} {as : List Tuple} {b : β}
    (h : as = [] ∨ (serve policy p? as b).1.2 ≠ none) (bs : List Tuple) :
    let first := serve policy p? as b
    let second := serve policy first.1.2 bs first.2
    serve policy p? (as ++ bs) b = ((first.1.1 ++ second.1.1, second.1.2), second.2) ∧
      first.1.1.length = as.length := by
  induction as generalizing p? b with
  | nil => exact ⟨rfl, rfl⟩
  | cons a as ih =>
    have hleft := h.resolve_left (List.cons_ne_nil a as)
    rw [serve_cons_apply] at hleft
    rw [List.cons_append, serve_cons_apply, serve_cons_apply]
    by_cases hf : (openRead policy p? a.address b).1.advance.Finished
    · simp only [if_pos hf] at hleft
      exact absurd rfl hleft
    · simp only [if_neg hf] at hleft ⊢
      obtain ⟨hrun, hlen⟩ := ih (.inr hleft)
      simp only [hrun, List.length_cons, hlen]
      exact ⟨rfl, trivial⟩

end Read

section Write

variable {policy : Policy}

/-- A write that has stopped ignores the other tuples of its frame. -/
theorem collect_append_of_finished {p? : Option Progress} {as : List Tuple} (has : as ≠ [])
    {p : Progress} (h : (collect policy p? as).2 = some p) (hf : p.Finished) (bs : List Tuple) :
    collect policy p? (as ++ bs) = collect policy p? as := by
  induction as generalizing p? with
  | nil => exact absurd rfl has
  | cons a as ih =>
    rw [collect] at h
    rw [List.cons_append, collect, collect]
    by_cases hn : (openWrite policy p? a.address).Finished
    · simp only [if_pos hn]
    · by_cases hw : ((openWrite policy p? a.address).put a.data).Finished
      · simp only [if_neg hn, if_pos hw]
      · simp only [if_neg hn, if_neg hw] at h ⊢
        have hne : as ≠ [] := by
          rintro rfl
          exact hw (Option.some.inj h ▸ hf)
        rw [ih hne h]

theorem length_collect_le (p? : Option Progress) (ts : List Tuple) :
    (collect policy p? ts).1.length ≤ ts.length := by
  induction ts generalizing p? with
  | nil => exact Nat.le_refl 0
  | cons t ts ih =>
    rw [collect]
    split
    · exact Nat.zero_le _
    · split
      · exact Nat.succ_le_succ (Nat.zero_le _)
      · exact Nat.succ_le_succ (ih _)

/-- A write has something in hand after a tuple. -/
theorem collect_ne_none (policy : Policy) (p? : Option Progress) {as : List Tuple} (has : as ≠ []) :
    (collect policy p? as).2 ≠ none := by
  induction as generalizing p? with
  | nil => exact absurd rfl has
  | cons a as ih =>
    rw [collect]
    split
    · exact Option.some_ne_none _
    · split
      · exact Option.some_ne_none _
      · cases as with
        | nil => exact Option.some_ne_none _
        | cons a' as => exact ih _ (List.cons_ne_nil a' as)

/-- A write that has not stopped has answered every tuple, and goes on with the others. -/
theorem collect_append_of_open {p? : Option Progress} {as : List Tuple}
    (h : ∀ p, (collect policy p? as).2 = some p → ¬p.Finished) (bs : List Tuple) :
    let first := collect policy p? as
    let second := collect policy first.2 bs
    collect policy p? (as ++ bs) = (first.1 ++ second.1, second.2) ∧
      first.1.length = as.length := by
  induction as generalizing p? with
  | nil => exact ⟨rfl, rfl⟩
  | cons a as ih =>
    rw [collect] at h
    rw [List.cons_append, collect, collect]
    by_cases hn : (openWrite policy p? a.address).Finished
    · rw [if_pos hn] at h
      exact absurd hn (h _ rfl)
    · by_cases hw : ((openWrite policy p? a.address).put a.data).Finished
      · rw [if_neg hn, if_pos hw] at h
        exact absurd hw (h _ rfl)
      · simp only [if_neg hn, if_neg hw] at h ⊢
        obtain ⟨hrun, hlen⟩ := ih h
        simp only [hrun, List.length_cons, hlen]
        exact ⟨rfl, trivial⟩

end Write

/-! ## Frames -/

section Frames

variable {β : Type} [Board β] {t : Transfer} {direction : Direction} {as : List Tuple} {b : β}

theorem read_apply (t : Transfer) (ts : List Tuple) (b : β) :
    t.run .read ts b =
      let r := serve t.policy t.activity.reading? ts b
      ((r.1.1, { t with activity := .ofRead r.1.2 }), r.2) := rfl

theorem write_apply (t : Transfer) (ts : List Tuple) (b : β) :
    t.run .write ts b =
      let c := collect t.policy t.activity.writing? ts
      let r := settle c.2 b
      ((c.1, { t with activity := r.1 }), r.2) := rfl

/-- No more replies than tuples. -/
theorem length_run_le (t : Transfer) (direction : Direction) (ts : List Tuple) (b : β) :
    (t.run direction ts b).1.1.length ≤ ts.length := by
  cases direction with
  | read => exact length_serve_le _ ts b
  | write => exact length_collect_le _ ts

/-- A write that is not finished waits. -/
theorem settle_of_open {p? : Option Progress} (h : ∀ p, p? = some p → ¬p.Finished) (b : β) :
    (settle p? b).1.writing? = p? ∧ (settle p? b).2 = b := by
  cases p? with
  | none => exact ⟨rfl, rfl⟩
  | some p =>
    simp only [settle, if_neg (h p rfl)]
    exact ⟨rfl, rfl⟩

theorem settle_eq_idle_iff {p : Progress} {b : β} :
    (settle (some p) b).1 = .idle ↔ p.Finished := by
  by_cases hf : p.Finished
  · simp only [settle, hf, iff_true]
    rfl
  · simp only [settle, hf, iff_false]
    intro h
    cases h

theorem ofRead_eq_idle_iff {p? : Option Progress} : Activity.ofRead p? = .idle ↔ p? = none := by
  cases p? with
  | none => exact ⟨fun _ => rfl, fun _ => rfl⟩
  | some p => exact ⟨fun h => (nomatch h), fun h => (nomatch h)⟩

/-- Nothing is under way after at least one tuple: the loop has stopped, and the other tuples of the
frame are ignored. -/
theorem run_append_of_idle (has : as ≠ []) (h : (t.run direction as b).1.2.activity = .idle)
    (bs : List Tuple) : t.run direction (as ++ bs) b = t.run direction as b := by
  cases direction with
  | read =>
    have hleft : (serve t.policy t.activity.reading? as b).1.2 = none := ofRead_eq_idle_iff.mp h
    rw [read_apply, read_apply, serve_append_of_none has hleft]
  | write =>
    obtain ⟨p, hp⟩ := Option.ne_none_iff_exists'.mp
      (collect_ne_none t.policy t.activity.writing? has)
    have hs : (settle (collect t.policy t.activity.writing? as).2 b).1 = .idle := h
    rw [hp] at hs
    rw [write_apply, write_apply, collect_append_of_finished has hp (settle_eq_idle_iff.mp hs)]

/-- A transfer is under way after the first tuples, or there were none: the other tuples of the
frame might as well come in a second one. -/
theorem run_append_of_open (ht : ∀ p, t.activity.writing? = some p → ¬p.Finished)
    (h : as = [] ∨ (t.run direction as b).1.2.activity ≠ .idle) (bs : List Tuple) :
    let first := t.run direction as b
    let second := first.1.2.run direction bs first.2
    t.run direction (as ++ bs) b = ((first.1.1 ++ second.1.1, second.1.2), second.2) ∧
      first.1.1.length = as.length := by
  cases direction with
  | read =>
    have hleft : as = [] ∨ (serve t.policy t.activity.reading? as b).1.2 ≠ none :=
      h.imp_right (mt ofRead_eq_idle_iff.mpr)
    obtain ⟨hrun, hlen⟩ := serve_append_of_some hleft bs
    have hgo : (Activity.ofRead (serve t.policy t.activity.reading? as b).1.2).reading? =
        (serve t.policy t.activity.reading? as b).1.2 := by
      cases (serve t.policy t.activity.reading? as b).1.2 <;> rfl
    simp only [read_apply, hrun, hgo]
    exact ⟨trivial, hlen⟩
  | write =>
    have hopen : ∀ p, (collect t.policy t.activity.writing? as).2 = some p → ¬p.Finished := by
      intro p hp
      rcases h with rfl | h
      · exact ht p hp
      · intro hf
        have hs : (settle (collect t.policy t.activity.writing? as).2 b).1 ≠ .idle := h
        rw [hp] at hs
        exact hs (settle_eq_idle_iff.mpr hf)
    obtain ⟨hrun, hlen⟩ := collect_append_of_open hopen bs
    obtain ⟨hgo, hb⟩ := settle_of_open hopen b
    simp only [write_apply, hrun, hgo, hb]
    exact ⟨trivial, hlen⟩

end Frames

/-! ## Calls -/

/-- **Cutting a frame in two.** Of a frame with the first `n` tuples of a request, the first `j` are
sent by themselves, and the others at the front of another request.

* If this leaves nothing under way after one tuple or more, then the whole frame has the outcome of
  the first part: the other tuples have no reply and touch nothing.
* If not, then the whole frame leaves the engine and the board as the two parts do, with the same
  calls of the board on the way, and its response has the replies of both, those of the second part
  in the slots from `j` on. -/
theorem call_cut {β : Type} [Board β] {policy : Policy} {t : Transfer}
    (ht : Reachable β policy t) (direction : Direction) {n j : Nat} (hn : n ≤ Frame.slots)
    (hj : j ≤ n) {q rest : Request} (hrest : ∀ i < n - j, rest.tuple? i = q.tuple? (j + i))
    {preset later : Response}
    (hlater : ∀ i, j + i < Frame.slots → later.tuple? i = preset.tuple? (j + i))
    (b : Traced β Board.Call) :
    let whole := t.call direction n q preset b
    let first := t.call direction j q preset b
    let second := first.1.2.call direction (n - j) rest later first.2
    (1 ≤ j → first.1.2.activity = .idle →
      whole = first ∧ ∀ i, j ≤ i → whole.1.1.tuple? i = preset.tuple? i) ∧
    (j = 0 ∨ first.1.2.activity ≠ .idle →
      whole.1.2 = second.1.2 ∧ whole.2 = second.2 ∧ whole.1.1.head = first.1.1.head ∧
      (∀ i < j, whole.1.1.tuple? i = first.1.1.tuple? i) ∧
      ∀ i, j + i < Frame.slots → whole.1.1.tuple? (j + i) = second.1.1.tuple? i) := by
  intro whole first second
  have hlen : (q.tuples j).length = j := q.length_tuples (hj.trans hn)
  have hts : q.tuples n = q.tuples j ++ rest.tuples (n - j) := Request.tuples_eq_append hj hrest
  have hwhole : whole = t.call direction n q preset b := rfl
  rw [call_apply, hts] at hwhole
  constructor
  · intro h1 hidle
    have hne : q.tuples j ≠ [] := by
      intro h0
      rw [h0] at hlen
      exact absurd hlen (Nat.ne_of_lt h1)
    rw [run_append_of_idle hne hidle] at hwhole
    refine ⟨hwhole, fun i hi => ?_⟩
    rw [hwhole]
    exact Response.tuple?_fill_of_le ((length_run_le ..).trans (hlen.le.trans hi))
  · intro hgo
    have hopen : ∀ p, t.activity.writing? = some p → ¬p.Finished :=
      fun p hp => (ht.underway (.inr hp)).not_finished
    have hgo : q.tuples j = [] ∨ (t.run direction (q.tuples j) b).1.2.activity ≠ .idle :=
      hgo.imp_left fun h0 => List.length_eq_zero_iff.mp (hlen.trans h0)
    obtain ⟨hrun, hreplies⟩ := run_append_of_open hopen hgo (rest.tuples (n - j))
    rw [hlen] at hreplies
    rw [hrun] at hwhole
    rw [hwhole]
    refine ⟨rfl, rfl, rfl, fun i hi => ?_, fun i hi => ?_⟩
    · exact Response.tuple?_fill_append_left (hreplies.symm ▸ hi)
    · exact Response.tuple?_fill_append hreplies hi (hlater i hi)

/-- The second half of a control word and one tuple too many, whole and cut after the first tuple:
the word is set once, and the tuple too many has no reply. -/
theorem control_word_cut :
    let t : Transfer := ⟨.trust, .writing ⟨.control, 2, 0x2211⟩⟩
    let b : Traced (MemoryBoard Ticker) Board.Call := ⟨.boot ⟨0, 1⟩, []⟩
    let q : Request := .pack (.pack .write .config 3) [⟨2, 0x33⟩, ⟨3, 0x44⟩, ⟨4, 0x55⟩]
    let rest : Request := .pack (.pack .write .config 2) [⟨3, 0x44⟩, ⟨4, 0x55⟩]
    let whole := t.call .write 3 q .zero b
    let first := t.call .write 1 q .zero b
    let second := first.1.2.call .write 2 rest .zero first.2
    first.1.2.activity = .writing ⟨.control, 3, 0x332211⟩ ∧
    (whole.1.2 = second.1.2 ∧ second.1.2.activity = .idle) ∧
    (whole.2 = second.2 ∧ second.2.trace = [.ordered (.setControl 0x44332211)]) ∧
    (whole.1.1.tuple? 1 = second.1.1.tuple? 0 ∧ second.1.1.tuple? 0 = some ⟨3, 0⟩) ∧
    (whole.1.1.tuple? 2 = second.1.1.tuple? 1 ∧ second.1.1.tuple? 1 = some .zero) := by
  intro t b q rest whole first second
  have ht : Reachable (MemoryBoard Ticker) .trust t :=
    ⟨[.frame .write [⟨0, 0x11⟩, ⟨1, 0x22⟩]], b.state, by decide⟩
  have hrest : ∀ i < 3 - 1, rest.tuple? i = q.tuple? (1 + i) := by decide
  have hlater : ∀ i, 1 + i < Frame.slots →
      Response.zero.tuple? i = Response.zero.tuple? (1 + i) := fun i hi => by
    rw [Response.tuple?_zero hi, Response.tuple?_zero (by omega)]
  obtain ⟨-, hopen⟩ := call_cut ht .write (by decide) (by decide) hrest hlater b
  obtain ⟨hengine, hboard, -, -, hslots⟩ := hopen (.inr (by decide))
  exact ⟨by decide, ⟨hengine, by decide⟩, ⟨hboard, by decide⟩, ⟨hslots 0 (by decide), by decide⟩,
    ⟨hslots 1 (by decide), by decide⟩⟩

end Transfer

end RadioControl
