import RadioControl.Setting.Basic

/-!
# Values of settings

Every setting is read and written as one 64-bit word. A write keeps as many low bits as the setting
has; a correction is a signed number and is read with its sign extended to 64 bits.
-/

namespace RadioControl

namespace Setting

/-- What a read of no setting returns. -/
def unmappedValue : UInt64 := 0xFFFFFFFFFFFFFFFF

/-- A signed correction as a word. -/
def correctionWord (value : Int16) : UInt64 := value.toInt64.toUInt64

/-- The signed number in the low 16 bits of a word. -/
def wordCorrection (word : UInt64) : Int16 := word.toUInt16.toInt16

variable {β : Type} [Board β]

/-- The word that a read of the setting returns. What can only be written reads as zero. -/
def fetch : Setting → StateM β UInt64
  | .control => do
    let v : UInt32 ← Board.ask .control
    return v.toUInt64
  | .correction path term => do
    let v : Int16 ← Board.ask (.correction path term)
    return correctionWord v
  | .firmware => do
    let v : UInt32 ← Board.ask .firmware
    return v.toUInt64
  | .timestamp path => Board.ask (.timestamp path)
  | .trim | .synthWord => pure 0
  | .expansion => do
    let v : UInt32 ← Board.ask .expansion
    return v.toUInt64
  | .expansionDirection => do
    let v : UInt32 ← Board.ask .expansionDirection
    return v.toUInt64
  | .unmapped => pure unmappedValue

/-- The order that a write of `word` to the setting gives, if it gives one. -/
def order? (word : UInt64) : Setting → Option Board.Order
  | .control => some (.setControl word.toUInt32)
  | .correction path term => some (.setCorrection path term (wordCorrection word))
  | .timestamp path => some (.resetTimestamp path)
  | .trim => some (.setTrim word.toUInt16)
  | .synthWord => some (.sendSynthWord word.toUInt32)
  | .expansion => some (.setExpansion word.toUInt32)
  | .expansionDirection => some (.setExpansionDirection word.toUInt32)
  | .firmware | .unmapped => none

/-- A write of `word` to the setting. -/
def store (s : Setting) (word : UInt64) : StateM β Unit :=
  match s.order? word with
  | some o => Board.order o
  | none => pure ()

end Setting

end RadioControl
