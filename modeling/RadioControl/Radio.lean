import RadioControl.Frame.Request
import RadioControl.Frame.Response
import RadioControl.Register.Bank
import RadioControl.Transfer.Engine

/-!
# The radio

A radio is a transfer engine with what it moves bytes for: the transceiver, the clock generator and
the board. `handle` carries out one request and returns the replies.

A request for a chip is one access, to the register that the first tuple names, whatever its count.
A request for the board moves as many tuples as its control byte counts. A request with no direction
or no device does nothing.
-/

namespace RadioControl

/-- A transfer engine, two register banks and a board. -/
structure Radio (τ κ β : Type) where
  transfer : Transfer := {}
  transceiver : τ
  clock : κ
  board : β

namespace Radio

variable {τ κ β α : Type}

/-- An action of the transceiver. -/
def onTransceiver : StateM τ α → StateM (Radio τ κ β) α :=
  onPart Radio.transceiver fun transceiver r => { r with transceiver }

/-- An action of the clock generator. -/
def onClock : StateM κ α → StateM (Radio τ κ β) α :=
  onPart Radio.clock fun clock r => { r with clock }

/-- An action of the board. -/
def onBoard : StateM β α → StateM (Radio τ κ β) α :=
  onPart Radio.board fun board r => { r with board }

/-- An action of the board that moves the transfer engine on. -/
def onTransfer (act : Transfer → StateM β (α × Transfer)) : StateM (Radio τ κ β) α :=
  fun r => match act r.transfer r.board with
    | ((a, transfer), board) => (a, { r with transfer, board })

/-- The radio with nothing under way. -/
def reset (r : Radio τ κ β) : Radio τ κ β := { r with transfer := r.transfer.reset }

end Radio

/-- The reply of a register bank to its tuple: a read brings the register, a write brings zero. -/
def RegisterBank.serve {ρ : Type} [RegisterBank ρ] (direction : Direction) (t : Tuple) :
    StateM ρ Tuple :=
  match direction with
  | .read => do
    let value ← RegisterBank.read t.address
    return ⟨t.address, value⟩
  | .write => do
    RegisterBank.write t.address t.data
    return ⟨t.address, 0⟩

namespace Radio

variable {τ κ β : Type} [RegisterBank τ] [RegisterBank κ] [Board β]

/-- The replies to a request. -/
def handle (q : Request) : StateM (Radio τ κ β) (List Tuple) :=
  match q.control.direction? with
  | none => pure []
  | some direction =>
    match q.control.device with
    | .config => onTransfer fun t => t.run direction (q.tuples q.control.count)
    | .transceiver => do
      let reply ← onTransceiver (RegisterBank.serve direction q.payload[0])
      return [reply]
    | .clockSynth => do
      let reply ← onClock (RegisterBank.serve direction q.payload[0])
      return [reply]
    | .reserved => pure []

/-- The response to a request: `preset` with the replies in its first slots. -/
def answer (q : Request) (preset : Response) : StateM (Radio τ κ β) Response := do
  let replies ← handle q
  return preset.fill replies

end Radio

end RadioControl
