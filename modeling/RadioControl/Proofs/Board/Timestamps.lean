import Mathlib
import RadioControl.Proofs.Board.Memory
import RadioControl.Proofs.Stateful

/-!
# What the timestamps of a board count

A board in memory carries out actions of any kind (`Board.Action.performAll`). The tick source is
polled once at the start, once for each timestamp and once for each reset (`pollsMade`), and the
epoch of a path is the poll of its latest reset, or the first (`resetPoll`). `Counts` is the
invariant that ties the board to the actions that it has carried out, and `Counts.perform` keeps it.

* `ticksAfter_recorded`: a recorded tick source shows all its answers, in their order.
* `tick_ticker`: the answers of a counter that moves by a fixed step.
* `timestamps_count_polls`: a timestamp is the distance between two polls that are named.
-/

namespace RadioControl

/-! ## Tick sources -/

/-- A tick source with a record of its answers. -/
instance instTickSourceTraced {τ : Type} [TickSource τ] : TickSource (Traced τ UInt64) where
  poll := Traced.recording id TickSource.poll

section Ticks

variable {τ : Type} [TickSource τ]

theorem ticksAfter_recorded (start : τ) (n : Nat) :
    ticksAfter (⟨start, []⟩ : Traced τ UInt64) n =
      ⟨ticksAfter start n, (List.range n).map (tick start)⟩ := by
  induction n with
  | zero => rfl
  | succ n ih =>
    have hpoll : ticksAfter (⟨start, []⟩ : Traced τ UInt64) (n + 1) =
        (TickSource.poll (ticksAfter (⟨start, []⟩ : Traced τ UInt64) n)).2 := rfl
    rw [hpoll, ih, List.range_succ, List.map_append]
    rfl

theorem tick_recorded (start : τ) (n : Nat) :
    tick (⟨start, []⟩ : Traced τ UInt64) n = tick start n := by
  unfold tick
  rw [ticksAfter_recorded]
  rfl

theorem ticksAfter_ticker (clock : Ticker) (n : Nat) :
    ticksAfter clock n = { clock with now := clock.now + clock.step * UInt64.ofNat n } := by
  induction n with
  | zero =>
    have hzero : clock.now + clock.step * UInt64.ofNat 0 = clock.now := by simp
    rw [hzero]
    rfl
  | succ n ih =>
    have hpoll : ticksAfter clock (n + 1) = (TickSource.poll (ticksAfter clock n)).2 := rfl
    have hstep : clock.now + clock.step * UInt64.ofNat (n + 1) =
        clock.now + clock.step * UInt64.ofNat n + clock.step := by
      rw [UInt64.ofNat_add, UInt64.mul_add, UInt64.add_assoc]
      exact congrArg (fun x => clock.now + (clock.step * UInt64.ofNat n + x)) (UInt64.mul_one _)
    rw [hpoll, ih, hstep]
    rfl

theorem tick_ticker (clock : Ticker) (n : Nat) :
    tick clock n = clock.now + clock.step * UInt64.ofNat n := by
  unfold tick
  rw [ticksAfter_ticker]
  rfl

/-- The distance between two answers of a counter, wrapped or not. -/
theorem tick_sub_tick_ticker (clock : Ticker) {m n : Nat} (h : m ≤ n) :
    tick clock n - tick clock m = clock.step * UInt64.ofNat (n - m) := by
  obtain ⟨d, rfl⟩ := Nat.exists_eq_add_of_le h
  rw [tick_ticker, tick_ticker, UInt64.ofNat_add, UInt64.mul_add, Nat.add_sub_cancel_left,
    ← UInt64.add_assoc, UInt64.add_comm (clock.now + clock.step * UInt64.ofNat m),
    UInt64.add_sub_cancel]

end Ticks

/-! ## Actions -/

namespace Board

/-- What a board can be made to do. -/
inductive Action where
  | ask (query : Query)
  | order (order : Order)
  deriving DecidableEq

namespace Action

/-- The tick source is polled for it. -/
def isTimed : Action → Bool
  | .ask (.timestamp _) | .order (.resetTimestamp _) => true
  | _ => false

section Perform

variable {β : Type} [Board β]

/-- Carry out an action. -/
def perform : Action → StateM β Call
  | .ask q => return .asked q (← Board.ask q)
  | .order o => do
    Board.order o
    return .ordered o

/-- The actions of a run, with their answers. -/
def performAll (actions : List Action) : StateM β (List Call) := actions.mapM perform

theorem performAll_concat_apply (actions : List Action) (a : Action) (b : β) :
    performAll (actions ++ [a]) b =
      let before := performAll actions b
      let c := perform a before.2
      (before.1 ++ [c.1], c.2) :=
  mapM_append_apply perform actions [a] b

end Perform

/-- How often the tick source has been polled: once at the start, and once for each action that has
to do with a timestamp. -/
def pollsMade (actions : List Action) : Nat := 1 + actions.countP isTimed

/-- The number of the poll that a timestamp of the path counts from, the actions being given the
latest first: that of the latest reset, or the first. -/
def resetPoll (path : Path) : List Action → Nat
  | [] => 0
  | a :: before =>
    if a = .order (.resetTimestamp path) then pollsMade before else resetPoll path before

theorem pollsMade_cons (a : Action) (before : List Action) :
    pollsMade (a :: before) = pollsMade before + if a.isTimed then 1 else 0 := by
  unfold pollsMade
  rw [List.countP_cons, Nat.add_assoc]

theorem pollsMade_reverse (actions : List Action) :
    pollsMade actions.reverse = pollsMade actions := by
  unfold pollsMade
  rw [List.countP_reverse]

theorem pollsMade_lt {a : Action} (h : a.isTimed) (earlier later : List Action) :
    pollsMade earlier < pollsMade (earlier ++ a :: later) := by
  unfold pollsMade
  rw [List.countP_append, List.countP_cons_of_pos h]
  omega

/-- A timestamp counts from a poll that has been made. -/
theorem resetPoll_lt (path : Path) (history : List Action) :
    resetPoll path history < pollsMade history := by
  induction history with
  | nil => exact Nat.one_pos
  | cons a before ih =>
    rw [resetPoll, pollsMade_cons]
    split
    · rename_i h
      subst h
      exact Nat.lt_succ_self _
    · omega

end Action

end Board

/-! ## The invariant -/

namespace MemoryBoard

open Board Board.Action

variable {τ : Type} [TickSource τ]

theorem perform_timestamp (path : Path) (b : MemoryBoard τ) :
    (Action.ask (.timestamp path)).perform b =
      (.asked (.timestamp path) ((TickSource.poll b.ticks).1 - b.epoch.get path),
        { b with ticks := (TickSource.poll b.ticks).2 }) := rfl

theorem perform_reset (path : Path) (b : MemoryBoard τ) :
    (Action.order (.resetTimestamp path)).perform b =
      (.ordered (.resetTimestamp path), { b with
        ticks := (TickSource.poll b.ticks).2
        epoch := b.epoch.set (TickSource.poll b.ticks).1 path }) := rfl

/-- A timed action polls the tick source once, and no other action polls it. -/
theorem ticks_perform (a : Action) (b : MemoryBoard τ) :
    (a.perform b).2.ticks = if a.isTimed then (TickSource.poll b.ticks).2 else b.ticks := by
  cases a with
  | ask q => cases q <;> rfl
  | order o => cases o <;> rfl

/-- Only a reset of the path moves its epoch. -/
theorem epoch_perform (a : Action) (path : Path) (b : MemoryBoard τ) :
    (a.perform b).2.epoch.get path =
      if a = .order (.resetTimestamp path) then (TickSource.poll b.ticks).1
      else b.epoch.get path := by
  by_cases h : ∃ path', a = .order (.resetTimestamp path')
  · obtain ⟨path', rfl⟩ := h
    rw [perform_reset, PerPath.get_set]
    simp only [Action.order.injEq, Order.resetTimestamp.injEq]
  · have hepoch : (a.perform b).2.epoch = b.epoch := by
      cases a with
      | ask q => cases q <;> rfl
      | order o =>
        cases o with
        | resetTimestamp path' => exact absurd ⟨path', rfl⟩ h
        | _ => rfl
    rw [hepoch, if_neg fun ha => h ⟨path, ha⟩]

/-- The board stands where the actions have brought it to, as far as time is concerned. The actions
are given the latest first. -/
structure Counts (start : τ) (history : List Action) (b : MemoryBoard τ) : Prop where
  ticks : b.ticks = ticksAfter start (pollsMade history)
  epoch : ∀ path, b.epoch.get path = tick start (resetPoll path history)

namespace Counts

variable {start : τ} {history : List Action} {b : MemoryBoard τ}

theorem boot (start : τ) : Counts start [] (MemoryBoard.boot start) where
  ticks := rfl
  epoch path := by cases path <;> rfl

theorem perform (h : Counts start history b) (a : Action) :
    Counts start (a :: history) (a.perform b).2 where
  ticks := by
    rw [ticks_perform, pollsMade_cons, h.ticks]
    split <;> rfl
  epoch path := by
    rw [epoch_perform, resetPoll, h.epoch, h.ticks]
    split <;> rfl

/-- **The run.** -/
theorem performAll (start : τ) (actions : List Action) :
    Counts start actions.reverse (Action.performAll actions (MemoryBoard.boot start)).2 := by
  -- The last action of a run is the first of its history.
  induction actions using List.reverseRecOn with
  | nil => exact boot start
  | append_singleton actions a ih =>
    rw [performAll_concat_apply, List.reverse_append]
    exact ih.perform a

end Counts

/-- What a timestamp shows in the middle of a run. -/
theorem timestamp_performAll (start : τ) (earlier later : List Action) (path : Path) :
    (performAll (earlier ++ .ask (.timestamp path) :: later) (boot start)).1[earlier.length]? =
      some (.asked (.timestamp path)
        (tick start (pollsMade earlier) - tick start (resetPoll path earlier.reverse))) := by
  have h := Counts.performAll start earlier
  have hticks :
      (performAll earlier (boot start)).2.ticks = ticksAfter start (pollsMade earlier) := by
    rw [h.ticks, pollsMade_reverse]
  refine (getElem?_mapM_apply perform earlier later _ _).trans (congrArg some ?_)
  have hp := perform_timestamp path (performAll earlier (boot start)).2
  rw [hticks, h.epoch] at hp
  exact congrArg Prod.fst hp

/-- A timestamp is the distance, modulo 2^64, from the poll of the latest reset of its path, or from
the poll at the start, to the poll that it makes. The tick source, whatever its answers, is polled
once at the start, once for each timestamp and once for each reset, and for nothing else. An action
that is no reset of a path leaves its epoch. With a counter of a fixed step, a timestamp is that
step as often as the counter has been polled since. -/
theorem timestamps_count_polls (start : τ) :
    (∀ actions : List Action,
      (performAll actions (boot (⟨start, []⟩ : Traced τ UInt64))).2.ticks.trace =
        (List.range (pollsMade actions)).map (tick start)) ∧
    (∀ (earlier later : List Action) (path : Path), ∃ now epoch : UInt64,
      let run := performAll (earlier ++ .ask (.timestamp path) :: later)
        (boot (⟨start, []⟩ : Traced τ UInt64))
      let polls := run.2.ticks.trace
      polls[pollsMade earlier]? = some now ∧
      polls[resetPoll path earlier.reverse]? = some epoch ∧
      run.1[earlier.length]? = some (.asked (.timestamp path) (now - epoch))) ∧
    (∀ (a : Action) (path : Path) (b : MemoryBoard τ), a ≠ .order (.resetTimestamp path) →
      (a.perform b).2.epoch.get path = b.epoch.get path) ∧
    ∀ (clock : Ticker) (earlier later : List Action) (path : Path),
      (performAll (earlier ++ .ask (.timestamp path) :: later) (boot clock)).1[earlier.length]? =
        some (.asked (.timestamp path) (clock.step *
          UInt64.ofNat (pollsMade earlier - resetPoll path earlier.reverse))) := by
  have htrace : ∀ actions : List Action,
      (performAll actions (boot (⟨start, []⟩ : Traced τ UInt64))).2.ticks.trace =
        (List.range (pollsMade actions)).map (tick start) := by
    intro actions
    rw [(Counts.performAll _ actions).ticks, pollsMade_reverse, ticksAfter_recorded]
  refine ⟨htrace, fun earlier later path => ?_, fun a path b h => ?_,
    fun clock earlier later path => ?_⟩
  · have hnow := pollsMade_lt (a := .ask (.timestamp path)) rfl earlier later
    have hepoch := (resetPoll_lt path earlier.reverse).trans_le (pollsMade_reverse earlier).le
    have hlookup {n : Nat} (hn : n < pollsMade (earlier ++ .ask (.timestamp path) :: later)) :
        ((List.range (pollsMade (earlier ++ .ask (.timestamp path) :: later))).map
          (tick start))[n]? = some (tick start n) := by
      rw [List.getElem?_map, List.getElem?_range hn, Option.map_some]
    refine ⟨tick start (pollsMade earlier), tick start (resetPoll path earlier.reverse), ?_⟩
    intro run polls
    have hpolls : polls = _ := htrace _
    have hrun := timestamp_performAll (⟨start, []⟩ : Traced τ UInt64) earlier later path
    rw [tick_recorded, tick_recorded] at hrun
    rw [hpolls]
    exact ⟨hlookup hnow, hlookup (hepoch.trans hnow), hrun⟩
  · rw [epoch_perform, if_neg h]
  · have hle := (resetPoll_lt path earlier.reverse).le.trans (pollsMade_reverse earlier).le
    rw [timestamp_performAll, tick_sub_tick_ticker clock hle]

/-- A counter that wraps after the start. The epoch of one path is before the wrap and that of the
other after it. -/
theorem timestamps_across_the_wrap :
    let clock : Ticker := ⟨0xFFFFFFFFFFFFFFFF, 3⟩
    let earlier : List Action := [.ask (.timestamp .tx), .order (.resetTimestamp .rx)]
    let b := (performAll earlier (boot clock)).2
    (performAll earlier (boot (⟨clock, []⟩ : Traced Ticker UInt64))).2.ticks.trace =
      [0xFFFFFFFFFFFFFFFF, 2, 5] ∧
    (performAll (earlier ++ [.ask (.timestamp .rx)]) (boot clock)).1[2]? =
      some (.asked (.timestamp .rx) 3) ∧
    (performAll (earlier ++ [.ask (.timestamp .tx)]) (boot clock)).1[2]? =
      some (.asked (.timestamp .tx) 9) ∧
    ((Action.order (.resetTimestamp .rx)).perform b).2.epoch.get .tx = b.epoch.get .tx := by
  intro clock earlier b
  obtain ⟨htrace, -, hepoch, hcount⟩ := timestamps_count_polls clock
  have hpolls : (List.range (pollsMade earlier)).map (tick clock) = [0xFFFFFFFFFFFFFFFF, 2, 5] := by
    decide
  exact ⟨(htrace earlier).trans hpolls, hcount clock earlier [] .rx, hcount clock earlier [] .tx,
    hepoch (.order (.resetTimestamp .rx)) .tx b (by decide)⟩

end MemoryBoard

end RadioControl
