import RadioControl.Part

/-!
# Recorded parts

`Traced σ ε` is a state with the list of the events that it has seen, oldest first. The board,
the register banks and the two buses each have an instance that records every use, so the order
of accesses is a value like any other.
-/

namespace RadioControl

/-- A state and its events, oldest first. -/
structure Traced (σ ε : Type) where
  state : σ
  trace : List ε := []
  deriving DecidableEq

namespace Traced

variable {σ ε α : Type}

/-- The action `act` of the recorded state, with the event that its answer makes. -/
def recording (event : α → ε) (act : StateM σ α) : StateM (Traced σ ε) α :=
  fun t => match act t.state with
    | (a, s) => (a, ⟨s, t.trace ++ [event a]⟩)

theorem recording_apply (event : α → ε) (act : StateM σ α) (t : Traced σ ε) :
    recording event act t = ((act t.state).1,
      ⟨(act t.state).2, t.trace ++ [event (act t.state).1]⟩) := rfl

/-- The same state with no events. -/
def forget (t : Traced σ ε) : Traced σ ε := { t with trace := [] }

/-- A change of the state that is no event. -/
def update (f : σ → σ) (t : Traced σ ε) : Traced σ ε := { t with state := f t.state }

end Traced

end RadioControl
