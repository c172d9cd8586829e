import Mathlib
import RadioControl.Frame.Request
import RadioControl.Frame.Response
import RadioControl.Proofs.Stateful
import RadioControl.Transfer.Engine

/-!
# Runs of the transfer engine

A run is a list of inputs: frames in either direction, resets, and changes that the board makes by
itself between two frames. `feedAll` is the run, with the replies to each input, and `Reachable`
says that some run from a fresh engine ends there. `call` is a single frame with the request that it
comes in and the response that it fills.

`feedAll_append`: a run can be cut anywhere.
-/

namespace RadioControl

/-! ## Runs -/

namespace Transfer

/-- What reaches the engine from outside. -/
inductive Input (β : Type) where
  | frame (direction : Direction) (tuples : List Tuple)
  | reset
  /-- The board changes by itself. -/
  | drift (change : β → β)

/-- The engine with nothing under way. -/
def fresh (policy : Policy) : Transfer := { policy }

variable {β : Type} [Board β]

/-- The first `n` tuples of a request are dealt with, and the replies fill the first slots of a
response. -/
def call (t : Transfer) (direction : Direction) (n : Nat) (q : Request) (preset : Response) :
    StateM β (Response × Transfer) := do
  let (replies, t') ← t.run direction (q.tuples n)
  return (preset.fill replies, t')

/-- The replies to an input, and the engine after it. -/
def feed (t : Transfer) : Input β → StateM β (List Tuple × Transfer)
  | .frame direction ts => t.run direction ts
  | .reset => pure ([], t.reset)
  | .drift change => do
    modify change
    return ([], t)

/-- The replies to each input of a run, and the engine after it. -/
def feedAll (t : Transfer) : List (Input β) → StateM β (List (List Tuple) × Transfer)
  | [] => pure ([], t)
  | i :: is => do
    let (replies, t') ← t.feed i
    let (rest, t'') ← t'.feedAll is
    return (replies :: rest, t'')

/-- The engine after some run from a fresh one. -/
def Reachable (β : Type) [Board β] (policy : Policy) (t : Transfer) : Prop :=
  ∃ (inputs : List (Input β)) (b : β), ((fresh policy).feedAll inputs b).1.2 = t

theorem call_apply (t : Transfer) (direction : Direction) (n : Nat) (q : Request)
    (preset : Response) (b : β) : t.call direction n q preset b =
      let r := t.run direction (q.tuples n) b
      ((preset.fill r.1.1, r.1.2), r.2) := rfl

@[simp] theorem feedAll_nil (t : Transfer) : (t.feedAll [] : StateM β _) = pure ([], t) := rfl

theorem feedAll_cons (t : Transfer) (i : Input β) (is : List (Input β)) :
    t.feedAll (i :: is) = (do
      let (replies, t') ← t.feed i
      let (rest, t'') ← t'.feedAll is
      return (replies :: rest, t'')) := rfl

theorem feedAll_cons_apply (t : Transfer) (i : Input β) (is : List (Input β)) (b : β) :
    t.feedAll (i :: is) b =
      let r := t.feed i b
      let q := r.1.2.feedAll is r.2
      ((r.1.1 :: q.1.1, q.1.2), q.2) := rfl

/-- A run can be cut anywhere. -/
theorem feedAll_append (t : Transfer) (is js : List (Input β)) :
    t.feedAll (is ++ js) = (do
      let (first, t') ← t.feedAll is
      let (second, t'') ← t'.feedAll js
      return (first ++ second, t'')) := by
  induction is generalizing t with
  | nil => simp
  | cons i is ih => simp only [List.cons_append, feedAll_cons, ih, bind_assoc, pure_bind]

/-- A run can go on, with whatever board. -/
theorem Reachable.feed {policy : Policy} {t : Transfer} (h : Reachable β policy t) (i : Input β)
    (b : β) : Reachable β policy (t.feed i b).1.2 := by
  obtain ⟨inputs, b', rfl⟩ := h
  refine ⟨inputs ++ [.drift fun _ => b, i], b', ?_⟩
  rw [feedAll_append]
  rfl

end Transfer

end RadioControl
