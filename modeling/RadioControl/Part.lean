/-!
# Actions on a part of a state

The radio's state is made of parts (the transfer engine, two chips, the board), and each action
belongs to one of them. `onPart` runs such an action in the whole, and leaves the rest as it is.
-/

namespace RadioControl

/-- The action `act` of the part that `part` reads and `replace` writes, run in the whole state. -/
def onPart {σ ρ α : Type} (part : σ → ρ) (replace : ρ → σ → σ) (act : StateM ρ α) : StateM σ α :=
  fun s => match act (part s) with
    | (a, r) => (a, replace r s)

theorem onPart_apply {σ ρ α : Type} (part : σ → ρ) (replace : ρ → σ → σ) (act : StateM ρ α)
    (s : σ) : onPart part replace act s = ((act (part s)).1, replace (act (part s)).2 s) := rfl

end RadioControl
