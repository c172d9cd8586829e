import Mathlib
import RadioControl.Board.Memory
import RadioControl.Proofs.Transfer.Steps

/-!
# Transfers that are abandoned

A frame abandons what is under way if it runs in the other direction, even with no tuple, or if the
policy is strict and its first tuple does not have the address that is next (`Abandons`).

All that a frame has of the past is the progress that it goes on with (`goesOn`, `record_congr`),
and the frames that go on with nothing are those that abandon it (`abandons_iff`). So what is
abandoned is as good as reset (`abandoning_is_resetting`): its bytes and its value are nowhere in
what happens from then on.
-/

namespace RadioControl

theorem Activity.inDirection_of_ne {a : Activity} {direction other : Direction}
    (hd : other ≠ direction) {p : Progress} (hp : a.inDirection other = some p) :
    a.inDirection direction = none := by
  cases a <;> cases other <;> cases hp <;> cases direction
  all_goals first | rfl | exact absurd rfl hd

namespace Transfer

/-- The frame finds a transfer under way and does not go on with it. -/
inductive Abandons (t : Transfer) (direction : Direction) : List Tuple → Prop
  /-- The transfer runs in the other direction. -/
  | turned {other : Direction} {p : Progress} {ts : List Tuple} : other ≠ direction →
      t.activity.inDirection other = some p → Abandons t direction ts
  /-- A strict engine does not have the first tuple at the next address. -/
  | missed {p : Progress} {x : Tuple} {xs : List Tuple} : t.policy = .strict →
      t.activity.inDirection direction = some p → p.next ≠ x.address →
      Abandons t direction (x :: xs)

/-- The progress that a frame goes on with, at the address of its first tuple if it has one. -/
def goesOn (t : Transfer) (direction : Direction) : List Tuple → Option Progress
  | [] => t.activity.inDirection direction
  | x :: _ => t.policy.keep (t.activity.inDirection direction) x.address

section Abandon

variable {β : Type} [Board β] {t t' : Transfer} {policy : Policy} {direction : Direction}
  {p? p?' : Option Progress} {x : Tuple} {ts : List Tuple}

/-! ## What a frame has of the past -/

theorem recordServe_congr (h : policy.keep p? x.address = policy.keep p?' x.address) (b : β) :
    recordServe policy p? (x :: ts) b = recordServe policy p?' (x :: ts) b := by
  have ho : (recordOpen policy p? x.address : StateM β _) = recordOpen policy p?' x.address := by
    unfold recordOpen
    rw [h]
  rw [recordServe, ho, recordServe]

theorem recordCollect_congr (h : policy.keep p? x.address = policy.keep p?' x.address) :
    recordCollect policy p? (x :: ts) = recordCollect policy p?' (x :: ts) := by
  have ho : openWrite policy p? x.address = openWrite policy p?' x.address := by
    unfold openWrite
    rw [h]
  rw [recordCollect, ho, recordCollect]

/-- Two engines that go on with the same progress deal with the frame in the same way. -/
theorem record_congr (hp : t.policy = t'.policy)
    (h : t.goesOn direction ts = t'.goesOn direction ts) (b : β) :
    t.record (.frame direction ts) b = t'.record (.frame direction ts) b := by
  cases direction with
  | read =>
    have hs : recordServe t.policy t.activity.reading? ts b =
        recordServe t'.policy t'.activity.reading? ts b := by
      cases ts with
      | nil => exact congrArg (fun p? => (([], p?), b)) h
      | cons x xs =>
        rw [goesOn, goesOn, ← hp] at h
        rw [← hp]
        exact recordServe_congr h b
    rw [record_read_apply, record_read_apply, hs, hp]
  | write =>
    have hc : recordCollect t.policy t.activity.writing? ts =
        recordCollect t'.policy t'.activity.writing? ts := by
      cases ts with
      | nil => exact congrArg (([], ·)) h
      | cons x xs =>
        rw [goesOn, goesOn, ← hp] at h
        rw [← hp]
        exact recordCollect_congr h
    rw [record_write_apply, record_write_apply, hc, hp]

/-! ## Frames that go on with nothing -/

theorem goesOn_of_idle (h : t.activity = .idle) : t.goesOn direction ts = none := by
  have hnone : t.activity.inDirection direction = none := by
    rw [h]
    cases direction <;> rfl
  cases ts with
  | nil => exact hnone
  | cons x xs =>
    rw [goesOn, hnone, Policy.keep_none]

theorem Abandons.goesOn_eq_none (h : t.Abandons direction ts) : t.goesOn direction ts = none := by
  cases h with
  | turned hd hp =>
    have hnone := Activity.inDirection_of_ne hd hp
    cases ts with
    | nil => exact hnone
    | cons x xs =>
      rw [goesOn, hnone, Policy.keep_none]
  | missed hstrict hp hne =>
    rw [goesOn, hstrict, hp, Policy.keep_strict, if_neg hne]

/-- A frame abandons what is under way if and only if it goes on with nothing. -/
theorem abandons_iff :
    t.Abandons direction ts ↔ t.activity ≠ .idle ∧ t.goesOn direction ts = none := by
  constructor
  · refine fun h => ⟨fun hidle => ?_, h.goesOn_eq_none⟩
    have hnone : ∀ d p, t.activity.inDirection d ≠ some p := by
      rw [hidle]
      intro d p
      cases d <;> exact (Option.some_ne_none p).symm
    cases h with
    | turned _ hp => exact hnone _ _ hp
    | missed _ hp _ => exact hnone _ _ hp
  · rintro ⟨hne, hgo⟩
    obtain ⟨d, p, hp⟩ : ∃ d p, t.activity.inDirection d = some p := by
      cases ha : t.activity with
      | idle => exact absurd ha hne
      | reading p => exact ⟨.read, p, rfl⟩
      | writing p => exact ⟨.write, p, rfl⟩
    by_cases hd : d = direction
    · subst hd
      cases ts with
      | nil => exact absurd (hp.symm.trans hgo) (Option.some_ne_none p)
      | cons x xs =>
        rw [goesOn, hp] at hgo
        cases hpolicy : t.policy with
        | trust =>
          rw [hpolicy] at hgo
          cases hgo
        | strict =>
          rw [hpolicy, Policy.keep_strict] at hgo
          refine .missed hpolicy hp fun hn => ?_
          rw [if_pos hn] at hgo
          cases hgo
    · exact .turned hd hp

/-! ## Runs -/

theorem record_of_goesOn_eq_none (h : t.goesOn direction ts = none) (b : β) :
    t.record (.frame direction ts) b = t.reset.record (.frame direction ts) b := by
  have hp : t.policy = t.reset.policy := rfl
  have hreset : t.reset.goesOn direction ts = none := goesOn_of_idle rfl
  exact record_congr hp (h.trans hreset.symm) b

theorem recordAll_reset (t : Transfer) (is : List (Input β)) (b : β) :
    t.recordAll (.reset :: is) b =
      let run := t.reset.recordAll is b
      (([.reset] :: run.1.1, run.1.2), run.2) := rfl

theorem recordAll_of_abandons (h : t.Abandons direction ts) (is : List (Input β)) (b : β) :
    t.recordAll (.frame direction ts :: is) b =
      t.reset.recordAll (.frame direction ts :: is) b := by
  rw [recordAll_cons_apply, record_of_goesOn_eq_none h.goesOn_eq_none, recordAll_cons_apply]

theorem call_of_abandons {n : Nat} {q : Request} (h : t.Abandons direction (q.tuples n))
    (preset : Response) (b : β) :
    t.call direction n q preset b = t.reset.call direction n q preset b := by
  have hrun : t.run direction (q.tuples n) b = t.reset.run direction (q.tuples n) b := by
    have hf := feed_apply t (.frame direction (q.tuples n)) b
    rw [record_of_goesOn_eq_none h.goesOn_eq_none, ← feed_apply] at hf
    exact hf
  rw [call_apply, hrun, call_apply]

/-- **Abandoning is resetting.** A frame that abandons what is under way gives the response, the
calls of the board and the engine that it gives after a reset, and so it is with all that comes
later: with a reset before the frame, a run has only the reset more in its journal. So an engine
with anything else under way, which the frame abandons too, has the same response and the same run
from there on. -/
theorem abandoning_is_resetting {n : Nat} {q : Request} (h : t.Abandons direction (q.tuples n))
    (preset : Response) (b : Traced β Board.Call) :
    t.call direction n q preset b = t.reset.call direction n q preset b ∧
    (∀ is : List (Input (Traced β Board.Call)),
      let run := t.recordAll (.frame direction (q.tuples n) :: is) b
      t.recordAll (.reset :: .frame direction (q.tuples n) :: is) b =
        (([.reset] :: run.1.1, run.1.2), run.2)) ∧
    ∀ t' : Transfer, t'.policy = t.policy → t'.Abandons direction (q.tuples n) →
      t'.call direction n q preset b = t.call direction n q preset b ∧
      ∀ is : List (Input (Traced β Board.Call)),
        t'.recordAll (.frame direction (q.tuples n) :: is) b =
          t.recordAll (.frame direction (q.tuples n) :: is) b := by
  refine ⟨call_of_abandons h preset b, fun is => ?_, fun t' hp h' => ?_⟩
  · rw [recordAll_reset, ← recordAll_of_abandons h]
  · have hreset : t'.reset = t.reset := congrArg (Transfer.mk · .idle) hp
    refine ⟨?_, fun is => ?_⟩
    · rw [call_of_abandons h', call_of_abandons h, hreset]
    · rw [recordAll_of_abandons h', recordAll_of_abandons h, hreset]

end Abandon

/-- A strict engine in the middle of a timestamp is asked for a gain and for the expansion word, one
byte of each, and so is one in the middle of a control word: nothing tells which it was. -/
theorem stale_transfers_agree :
    let t : Transfer := ⟨.strict, .reading ⟨.timestamp .rx, 3, 0x0807060504030201⟩⟩
    let t' : Transfer := ⟨.strict, .writing ⟨.control, 2, 0x2211⟩⟩
    let b : Traced (MemoryBoard Ticker) Board.Call := ⟨.boot ⟨0, 1⟩, []⟩
    let q : Request := .pack (.pack .read .config 2) [⟨4, 0⟩, ⟨40, 0⟩]
    (t.Abandons .read (q.tuples 2) ∧ t'.Abandons .read (q.tuples 2)) ∧
    t.call .read 2 q .zero b = t.reset.call .read 2 q .zero b ∧
    t'.call .read 2 q .zero b = t.call .read 2 q .zero b ∧
    (t'.call .read 2 q .zero b).1.2.activity = .reading ⟨.expansion, 1, 0⟩ := by
  intro t t' b q
  have h : t.Abandons .read (q.tuples 2) := .missed rfl rfl (by decide)
  have h' : t'.Abandons .read (q.tuples 2) :=
    .turned (by decide : Direction.write ≠ .read) rfl
  obtain ⟨hreset, -, hother⟩ := abandoning_is_resetting h .zero b
  exact ⟨⟨h, h'⟩, hreset, (hother t' rfl h').1, by decide⟩

end Transfer

end RadioControl
