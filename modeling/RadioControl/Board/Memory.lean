import RadioControl.Board.Basic
import RadioControl.Board.Clock
import RadioControl.Version

/-!
# A board in memory

`MemoryBoard` keeps every setting in a cell of its own. A timestamp is no cell: it is the distance,
modulo 2^64, from the epoch of its path to the tick source, which is polled once for each timestamp,
once for each reset, and once at the start.
-/

namespace RadioControl

/-- A value for each path. -/
structure PerPath (α : Type) where
  rx : α
  tx : α
  deriving DecidableEq, Repr

namespace PerPath

variable {α : Type}

def get (p : PerPath α) : Path → α
  | .rx => p.rx
  | .tx => p.tx

def set (p : PerPath α) (a : α) : Path → PerPath α
  | .rx => { p with rx := a }
  | .tx => { p with tx := a }

theorem get_set (p : PerPath α) (a : α) (i j : Path) :
    (p.set a i).get j = if i = j then a else p.get j := by
  cases i <;> cases j <;> rfl

end PerPath

/-- The IQ correction of a path. -/
structure IqCorrection where
  gain : Int16
  phase : Int16
  deriving DecidableEq

namespace IqCorrection

def get (c : IqCorrection) : IqTerm → Int16
  | .gain => c.gain
  | .phase => c.phase

def set (c : IqCorrection) (v : Int16) : IqTerm → IqCorrection
  | .gain => { c with gain := v }
  | .phase => { c with phase := v }

theorem get_set (c : IqCorrection) (v : Int16) (i j : IqTerm) :
    (c.set v i).get j = if i = j then v else c.get j := by
  cases i <;> cases j <;> rfl

end IqCorrection

/-- A board that keeps its settings in memory and counts with the tick source `τ`. -/
structure MemoryBoard (τ : Type) where
  ticks : τ
  epoch : PerPath UInt64
  control : UInt32 := 0
  iq : PerPath IqCorrection := ⟨⟨0, 0⟩, ⟨0, 0⟩⟩
  /-- The last trim set, if any. -/
  trim : Option UInt16 := none
  /-- The last word sent to the synthesizer, if any. -/
  synthWord : Option UInt32 := none
  expansion : UInt32 := 0
  expansionDirection : UInt32 := 0
  deriving DecidableEq

namespace MemoryBoard

variable {τ : Type} [TickSource τ]

/-- The board at the start: both paths count from now. -/
def boot (ticks : τ) : MemoryBoard τ :=
  match TickSource.poll ticks with
  | (now, ticks) => { ticks, epoch := ⟨now, now⟩ }

/-- The next tick. -/
def poll : StateM (MemoryBoard τ) UInt64 :=
  onPart MemoryBoard.ticks (fun t b => { b with ticks := t }) TickSource.poll

def ask : (q : Board.Query) → StateM (MemoryBoard τ) q.Answer
  | .control => return (← get).control
  | .correction path term => return ((← get).iq.get path).get term
  | .firmware => return Version.firmware.packed
  | .timestamp path => do
    let now ← poll
    let b ← get
    return now - b.epoch.get path
  | .expansion => return (← get).expansion
  | .expansionDirection => return (← get).expansionDirection

def order : Board.Order → StateM (MemoryBoard τ) Unit
  | .setControl word => modify fun b => { b with control := word }
  | .setCorrection path term value => modify fun b =>
    { b with iq := b.iq.set ((b.iq.get path).set value term) path }
  | .resetTimestamp path => do
    let now ← poll
    modify fun b => { b with epoch := b.epoch.set now path }
  | .setTrim value => modify fun b => { b with trim := some value }
  | .sendSynthWord word => modify fun b => { b with synthWord := some word }
  | .setExpansion word => modify fun b => { b with expansion := word }
  | .setExpansionDirection mask => modify fun b => { b with expansionDirection := mask }

instance instBoard : Board (MemoryBoard τ) := ⟨ask, order⟩

end MemoryBoard

end RadioControl
