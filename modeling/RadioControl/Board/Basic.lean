import RadioControl.Trace

/-!
# The board

A board answers queries and carries out orders. Both are data, so a run of accesses is a list of
`Call`s; `instBoardTraced` records that list.
-/

namespace RadioControl

/-- A signal path of the radio. -/
inductive Path where
  | rx
  | tx
  deriving DecidableEq, Repr

/-- A term of the IQ correction of a path. -/
inductive IqTerm where
  | gain
  | phase
  deriving DecidableEq, Repr

namespace Board

/-- What a board can be asked. -/
inductive Query where
  | control
  | correction (path : Path) (term : IqTerm)
  | firmware
  /-- The ticks of a path since its last reset. -/
  | timestamp (path : Path)
  | expansion
  | expansionDirection
  deriving DecidableEq, Repr

/-- The type of the answer to a query. -/
abbrev Query.Answer : Query → Type
  | .control => UInt32
  | .correction _ _ => Int16
  | .firmware => UInt32
  | .timestamp _ => UInt64
  | .expansion => UInt32
  | .expansionDirection => UInt32

/-- What a board can be told to do. -/
inductive Order where
  | setControl (word : UInt32)
  | setCorrection (path : Path) (term : IqTerm) (value : Int16)
  /-- Start counting the ticks of a path from zero. -/
  | resetTimestamp (path : Path)
  | setTrim (value : UInt16)
  /-- Send a word to the synthesizer of the expansion board. -/
  | sendSynthWord (word : UInt32)
  | setExpansion (word : UInt32)
  | setExpansionDirection (mask : UInt32)
  deriving DecidableEq

/-- An access to a board. -/
inductive Call where
  | asked (query : Query) (answer : query.Answer)
  | ordered (order : Order)

instance instDecidableEqAnswer : (q : Query) → DecidableEq q.Answer
  | .control => inferInstanceAs (DecidableEq UInt32)
  | .correction _ _ => inferInstanceAs (DecidableEq Int16)
  | .firmware => inferInstanceAs (DecidableEq UInt32)
  | .timestamp _ => inferInstanceAs (DecidableEq UInt64)
  | .expansion => inferInstanceAs (DecidableEq UInt32)
  | .expansionDirection => inferInstanceAs (DecidableEq UInt32)

deriving instance DecidableEq for Call

end Board

/-- A board with the state `β`. -/
class Board (β : Type) where
  ask : (query : Board.Query) → StateM β query.Answer
  order : Board.Order → StateM β Unit

instance instBoardTraced {β : Type} [Board β] : Board (Traced β Board.Call) where
  ask q := Traced.recording (Board.Call.asked q) (Board.ask q)
  order o := Traced.recording (fun _ => Board.Call.ordered o) (Board.order o)

end RadioControl
