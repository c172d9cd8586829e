import RadioControl.Setting.Value
import RadioControl.Transfer.Progress

/-!
# Moving the tuples of a frame

A read sends a byte for each tuple (`serve`), a write takes one (`collect`). Both go on with the
progress that they are given, or begin the setting that the first address names, and both stop with
the tuple that finishes a setting: what follows in the frame is ignored.

A policy says what happens when a tuple does not carry the address that is next. Reads ask the board
once, at the first byte, and send the bytes of that one answer; writes ask nothing, and what they
collect is applied only when it is whole.
-/

namespace RadioControl

/-- What to make of the addresses in the middle of a transfer. -/
inductive Policy where
  /-- Take the next byte whatever the address. -/
  | trust
  /-- Drop a transfer whose next address is another, and begin anew. -/
  | strict
  deriving DecidableEq, Repr

namespace Policy

/-- The policy of a transfer that is not told otherwise. -/
def usual : Policy := .trust

/-- The progress that a tuple at `address` goes on with. -/
def keep (policy : Policy) (p? : Option Progress) (address : UInt8) : Option Progress :=
  match policy with
  | .trust => p?
  | .strict => p?.filter fun p => p.next == address

@[simp] theorem keep_none (policy : Policy) (address : UInt8) :
    policy.keep none address = none := by
  cases policy <;> rfl

@[simp] theorem keep_trust (p? : Option Progress) (address : UInt8) :
    keep .trust p? address = p? := rfl

theorem keep_strict (p : Progress) (address : UInt8) :
    keep .strict (some p) address = if p.next = address then some p else none := by
  by_cases h : p.next = address <;> simp [keep, Option.filter, h]

end Policy

namespace Transfer

/-- The read that goes on at `address`, or the one that begins there with a fresh value. -/
def openRead {β : Type} [Board β] (policy : Policy) (p? : Option Progress) (address : UInt8) :
    StateM β Progress :=
  match policy.keep p? address with
  | some p => pure p
  | none => do
    let value ← (Setting.atAddress address).fetch
    return .start (.atAddress address) value

/-- The write that goes on at `address`, or the one that begins there with nothing collected. -/
def openWrite (policy : Policy) (p? : Option Progress) (address : UInt8) : Progress :=
  (policy.keep p? address).getD (.start (.atAddress address) 0)

/-- The replies to the tuples of a read, and the progress that is left. -/
def serve {β : Type} [Board β] (policy : Policy) :
    Option Progress → List Tuple → StateM β (List Tuple × Option Progress)
  | p?, [] => pure ([], p?)
  | p?, t :: ts => do
    let p ← openRead policy p? t.address
    let reply := p.reply t.address p.head
    if p.advance.Finished then
      return ([reply], none)
    else
      let (replies, left) ← serve policy (some p.advance) ts
      return (reply :: replies, left)

/-- The replies to the tuples of a write, and the progress that is left; it is finished if the
setting is whole. A tuple that begins no setting has no reply. -/
def collect (policy : Policy) : Option Progress → List Tuple → List Tuple × Option Progress
  | p?, [] => ([], p?)
  | p?, t :: ts =>
    let p := openWrite policy p? t.address
    let reply := p.reply t.address 0
    if p.Finished then ([], some p)
    else if (p.put t.data).Finished then ([reply], some (p.put t.data))
    else
      let (replies, left) := collect policy (some (p.put t.data)) ts
      (reply :: replies, left)

end Transfer

end RadioControl
