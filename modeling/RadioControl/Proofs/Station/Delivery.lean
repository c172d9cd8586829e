import Mathlib
import RadioControl.Proofs.Frame.Framer
import RadioControl.Proofs.Frame.Request
import RadioControl.Proofs.Radio.Separation
import RadioControl.Station

/-!
# From bytes to requests

`delivery`: when the bytes of whole requests come in, the station answers each request once and in
order, and is left with no byte of another. In what chunks they come does not matter
(`receiveAll_append`).
-/

namespace RadioControl

namespace Station

variable {τ κ β : Type} [RegisterBank τ] [RegisterBank κ] [Board β]

/-- The station answers the frames that its framer finds. -/
theorem receiveAll_apply (bs : List UInt8) (s : Station τ κ β) :
    receiveAll bs s =
      let f := s.framer.feed bs
      let a := Radio.answerAll (f.1.map Request.ofFrame) s.radio
      (a.1, { framer := f.2, radio := a.2 }) := by
  induction bs generalizing s with
  | nil => rfl
  | cons b bs ih =>
    rw [receiveAll, bind_apply, receive, Framer.feed]
    rcases s.framer.push b with ⟨_ | f, framer⟩
    · simp only [bind_apply, ih]
      rfl
    · simp only [bind_apply, ih, List.map_cons, Radio.answerAll_cons_apply]
      rfl

/-- **Whole requests.** -/
theorem delivery {s : Station τ κ β} (hs : s.framer = .empty) (qs : List Request) :
    receiveAll (qs.flatMap Request.bytes) s =
      let a := Radio.answerAll qs s.radio
      (a.1, { framer := .empty, radio := a.2 }) := by
  have hbytes : qs.flatMap Request.bytes = (qs.map Request.toFrame).flatMap Vector.toList := by
    rw [List.flatMap_map]
    exact List.flatMap_congr fun q _ => q.toList_toFrame.symm
  have hq : (qs.map Request.toFrame).map Request.ofFrame = qs := by
    rw [List.map_map, show Request.ofFrame ∘ Request.toFrame = id from
      funext Request.ofFrame_toFrame, List.map_id]
  rw [receiveAll_apply, hs, hbytes, Framer.feed_frames]
  simp only [hq]

end Station

end RadioControl
