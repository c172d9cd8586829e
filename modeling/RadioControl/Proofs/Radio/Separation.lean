import Mathlib
import RadioControl.Proofs.Transfer.Run
import RadioControl.Radio

/-!
# What has to do with the board

Of the requests to a radio, those that move settings (`Request.isMove`) reach the transfer engine
and the board, and no others do: requests for the chips, for no device or in no direction can come
at any time, also in the middle of a transfer.

`answerAll_separates`: the responses to the moves are those of a run of the engine with the moves
alone, and so are the engine and the board in the end.
-/

namespace RadioControl

namespace Request

/-- The request is for the board and has a direction. -/
def isMove (q : Request) : Bool := q.control.device = .config && q.control.direction?.isSome

/-- What the request is to the transfer engine, if it reaches it. -/
def input? {β : Type} (q : Request) : Option (Transfer.Input β) :=
  if q.control.device = .config then
    q.control.direction?.map fun d => .frame d (q.tuples q.control.count)
  else none

theorem isSome_input? {β : Type} (q : Request) : (q.input? : Option (Transfer.Input β)).isSome =
    q.isMove := by
  unfold input? isMove
  by_cases h : q.control.device = .config
  · rw [if_pos h, Option.isSome_map, decide_eq_true h, Bool.true_and]
  · rw [if_neg h, decide_eq_false h]
    rfl

end Request

namespace Radio

variable {τ κ β : Type} [RegisterBank τ] [RegisterBank κ] [Board β]

/-- The responses to requests that come one after another, each on a blank frame. -/
def answerAll (qs : List Request) : StateM (Radio τ κ β) (List Response) :=
  qs.mapM fun q => answer q .zero

/-- Of what goes out for these requests, what goes out for the moves. -/
def toMoves {α : Type} (qs : List Request) (as : List α) : List α :=
  ((qs.zip as).filter fun x => x.1.isMove).map Prod.snd

theorem answerAll_cons_apply (q : Request) (qs : List Request) (r : Radio τ κ β) :
    answerAll (q :: qs) r =
      let a := answer q .zero r
      let rest := answerAll qs a.2
      (a.1 :: rest.1, rest.2) :=
  mapM_cons_apply (fun q => answer q .zero) q qs r

theorem toMoves_cons {α : Type} (q : Request) (qs : List Request) (a : α) (as : List α) :
    toMoves (q :: qs) (a :: as) = if q.isMove then a :: toMoves qs as else toMoves qs as := by
  unfold toMoves
  rw [List.zip_cons_cons, List.filter_cons]
  split <;> rfl

theorem toMoves_map {α γ : Type} (f : α → γ) (qs : List Request) (as : List α) :
    toMoves qs (as.map f) = (toMoves qs as).map f := by
  unfold toMoves
  rw [List.zip_map_right, List.filter_map, List.map_map, List.map_map]
  rfl

/-- A move is an input of the transfer engine. -/
theorem answer_move {q : Request} {i : Transfer.Input β} (h : q.input? = some i)
    (preset : Response) (r : Radio τ κ β) : answer q preset r =
      let f := r.transfer.feed i r.board
      (preset.fill f.1.1, { r with transfer := f.1.2, board := f.2 }) := by
  unfold Request.input? at h
  by_cases hd : q.control.device = .config
  · rw [if_pos hd] at h
    obtain ⟨d, hdir, rfl⟩ := Option.map_eq_some_iff.mp h
    unfold answer handle
    rw [bind_apply, hdir]
    simp only [hd]
    rfl
  · rw [if_neg hd] at h
    cases h

/-- No other request reaches the engine or the board. -/
theorem answer_other {q : Request} (h : (q.input? : Option (Transfer.Input β)) = none)
    (preset : Response) (r : Radio τ κ β) :
    (answer q preset r).2.transfer = r.transfer ∧ (answer q preset r).2.board = r.board := by
  have hh : (handle q r).2.transfer = r.transfer ∧ (handle q r).2.board = r.board := by
    unfold Request.input? at h
    unfold handle
    cases hdir : q.control.direction? with
    | none => exact ⟨rfl, rfl⟩
    | some d =>
      cases hd : q.control.device with
      | config =>
        rw [if_pos hd, hdir] at h
        cases h
      | transceiver | clockSynth | reserved => exact ⟨rfl, rfl⟩
  exact hh

/-- **The moves by themselves.** -/
theorem answerAll_separates (qs : List Request) (r : Radio τ κ β) :
    let out := answerAll qs r
    let f := r.transfer.feedAll (qs.filterMap Request.input?) r.board
    out.1.length = qs.length ∧ toMoves qs out.1 = f.1.1.map Response.zero.fill ∧
      out.2.transfer = f.1.2 ∧ out.2.board = f.2 := by
  induction qs generalizing r with
  | nil => exact ⟨rfl, rfl, rfl, rfl⟩
  | cons q qs ih =>
    obtain ⟨hlen, hmoves, ht, hb⟩ := ih (answer q .zero r).2
    simp only [answerAll_cons_apply, toMoves_cons, List.length_cons, hlen]
    cases hi : (q.input? : Option (Transfer.Input β)) with
    | none =>
      obtain ⟨htr, hbr⟩ := answer_other hi .zero r
      have hm : q.isMove = false := by
        rw [← Request.isSome_input? (β := β), hi]
        rfl
      rw [htr, hbr] at hmoves ht hb
      rw [List.filterMap_cons_none hi, hm]
      exact ⟨trivial, hmoves, ht, hb⟩
    | some i =>
      have hm : q.isMove = true := by
        rw [← Request.isSome_input? (β := β), hi]
        rfl
      have ha := answer_move hi .zero r
      rw [List.filterMap_cons_some hi, hm, Transfer.feedAll_cons_apply]
      rw [ha] at hmoves ht hb ⊢
      simp only [if_true, List.map_cons]
      exact ⟨trivial, congrArg _ hmoves, ht, hb⟩

end Radio

end RadioControl
