import Mathlib
import RadioControl.Proofs.Board.Memory

/-!
# A board as a register map

Seen from the host the board is a list of the commands that it has carried out, the latest first,
and a read shows what follows from this history (`reading`): the latest write to a cell, the ticks
since the latest write to a timestamp, and constants.

`Remembers` is the invariant that ties a board in memory to its history; `Remembers.fetch` and
`Remembers.store` keep it.
-/

namespace RadioControl

/-- What the host tells the board. -/
inductive Command where
  | write (setting : Setting) (value : UInt64)
  | read (setting : Setting)
  deriving DecidableEq

namespace Command

def setting : Command → Setting
  | .write s _ | .read s => s

/-- The tick source is polled for it. -/
def isTimed (c : Command) : Bool :=
  match c.setting with
  | .timestamp _ => true
  | _ => false

end Command

/-- The value of the latest write to the setting in a history, and what came before that write. -/
def latest (s : Setting) : List Command → Option (UInt64 × List Command)
  | [] => none
  | .write s' v :: before => if s' = s then some (v, before) else latest s before
  | .read _ :: before => latest s before

/-- How often the tick source has been polled: once at the start, and once for each command that has
to do with a timestamp. -/
def polls (history : List Command) : Nat := 1 + history.countP Command.isTimed

/-- The number of the poll that a timestamp counts from: that of its latest write, or the first. -/
def epochPoll (path : Path) (history : List Command) : Nat :=
  match latest (.timestamp path) history with
  | some (_, before) => polls before
  | none => 0

/-- The low bytes of a value, as many as the setting has. -/
def Setting.truncate (s : Setting) (v : UInt64) : UInt64 :=
  UInt64.ofNat (v.toNat % 256 ^ s.width.toNat)

/-- What a read of the setting shows after a history, if the ticks come from `start`. The fields of
the firmware version are one below the other, from the least significant byte up. -/
def reading {τ : Type} [TickSource τ] (start : τ) (history : List Command) (s : Setting) : UInt64 :=
  match s with
  | .firmware =>
    let v := Version.firmware
    UInt64.ofNat (v.major.toNat + 256 * v.minor.toNat + 65536 * v.patch.toNat)
  | .timestamp path => tick start (polls history) - tick start (epochPoll path history)
  | .trim | .synthWord => 0
  | .unmapped => Setting.unmappedValue
  | s => ((latest s history).map fun w => s.truncate w.1).getD 0

/-- The board is in the state that the history has brought it to. -/
structure Remembers {τ : Type} [TickSource τ] (start : τ) (history : List Command)
    (b : MemoryBoard τ) : Prop where
  cells : ∀ s : Setting, s.IsCell →
    (s.fetch b).1.toNat % 256 ^ s.width.toNat = (reading start history s).toNat
  epoch : ∀ path, b.epoch.get path = tick start (epochPoll path history)
  ticks : b.ticks = ticksAfter start (polls history)

section History

variable {s s' : Setting} {v : UInt64} {history : List Command}

theorem latest_write_self : latest s (.write s v :: history) = some (v, history) := if_pos rfl

theorem latest_write_other (h : s' ≠ s) : latest s (.write s' v :: history) = latest s history :=
  if_neg h

theorem latest_read : latest s (.read s' :: history) = latest s history := rfl

theorem polls_timed {c : Command} (h : c.isTimed) : polls (c :: history) = polls history + 1 := by
  unfold polls
  rw [List.countP_cons_of_pos h, Nat.add_assoc]

theorem polls_untimed {c : Command} (h : ∀ path, c.setting ≠ .timestamp path) :
    polls (c :: history) = polls history := by
  have hc : ¬c.isTimed := by
    unfold Command.isTimed
    split
    · rename_i path hp
      exact absurd hp (h path)
    · exact Bool.false_ne_true
  unfold polls
  rw [List.countP_cons_of_neg hc]

theorem Setting.toNat_truncate (s : Setting) (v : UInt64) :
    (s.truncate v).toNat = v.toNat % 256 ^ s.width.toNat := by
  have hv := v.toNat_lt
  have hle := Nat.mod_le v.toNat (256 ^ s.width.toNat)
  unfold truncate
  rw [UInt64.toNat_ofNat']
  exact Nat.mod_eq_of_lt (Nat.lt_of_le_of_lt hle hv)

/-- What a cell shows depends on the writes to it only. -/
theorem reading_cell {τ : Type} [TickSource τ] (start : τ) (history : List Command)
    (hs : s.IsCell) :
    reading start history s = ((latest s history).map fun w => s.truncate w.1).getD 0 := by
  cases s with
  | control | correction | expansion | expansionDirection => rfl
  | _ => exact absurd hs id

end History

namespace Remembers

variable {τ : Type} [TickSource τ] {start : τ} {history : List Command} {b : MemoryBoard τ}

/-- A board that has carried out nothing yet. -/
theorem boot (start : τ) : Remembers start [] (MemoryBoard.boot start) where
  cells s hs := by
    cases s with
    | correction path term => cases path <;> cases term <;> rfl
    | control | expansion | expansionDirection => rfl
    | _ => exact absurd hs id
  epoch path := by cases path <;> rfl
  ticks := rfl

/-- A read serves the bytes of what the history shows. -/
theorem digit_fetch (h : Remembers start history b) (s : Setting) {k : Nat}
    (hk : k < s.width.toNat) :
    LittleEndian.digit (s.fetch b).1.toNat k =
      LittleEndian.digit (reading start history s).toNat k := by
  by_cases hs : s.IsCell
  · refine LittleEndian.digit_congr ?_ hk
    rw [← h.cells s hs, Nat.mod_mod]
  · cases s with
    | timestamp path =>
      rw [MemoryBoard.fetch_timestamp, h.epoch path, h.ticks]
      rfl
    | firmware | trim | synthWord | unmapped => rfl
    | _ => exact absurd trivial hs

theorem fetch (h : Remembers start history b) (s : Setting) :
    Remembers start (.read s :: history) (s.fetch b).2 := by
  have hcells : ∀ s' : Setting, s'.IsCell →
      reading start (.read s :: history) s' = reading start history s' := by
    intro s' hs'
    rw [reading_cell start _ hs', reading_cell start _ hs', latest_read]
  by_cases ht : ∀ path, s ≠ .timestamp path
  · rw [MemoryBoard.fetch_of_ne_timestamp ht]
    refine ⟨fun s' hs' => ?_, h.epoch, ?_⟩
    · rw [hcells s' hs', h.cells s' hs']
    · rw [h.ticks, polls_untimed (c := .read s) ht]
  · obtain ⟨path, rfl⟩ := not_forall_not.mp ht
    rw [MemoryBoard.fetch_timestamp, h.ticks, poll_ticksAfter]
    refine ⟨fun s' hs' => ?_, h.epoch, by rw [polls_timed rfl]⟩
    rw [hcells s' hs', ← h.cells s' hs', MemoryBoard.fetch_with_ticks hs']

/-- A write of the low bytes of a value is a write of the value. -/
theorem store (h : Remembers start history b) {s : Setting} {v w : UInt64}
    (hw : w.toNat = v.toNat % 256 ^ s.width.toNat) :
    Remembers start (.write s v :: history) (s.store w b).2 := by
  have hcells : ∀ s' : Setting, s'.IsCell → (s'.fetch (s.store w b).2).1.toNat %
      256 ^ s'.width.toNat = (reading start (.write s v :: history) s').toNat := by
    intro s' hs'
    rw [reading_cell start _ hs']
    by_cases hne : s' = s
    · subst hne
      rw [MemoryBoard.fetch_store_self hs', hw, Nat.mod_mod, latest_write_self]
      exact (Setting.toNat_truncate s' v).symm
    · rw [MemoryBoard.fetch_store_other hs' hne, h.cells s' hs', latest_write_other (Ne.symm hne),
        reading_cell start _ hs']
  by_cases ht : ∀ path, s ≠ .timestamp path
  · obtain ⟨hticks, hepoch⟩ := MemoryBoard.ticks_store ht w b
    refine ⟨hcells, fun path => ?_, ?_⟩
    · rw [hepoch, h.epoch path]
      unfold epochPoll
      rw [latest_write_other (ht path)]
    · rw [hticks, h.ticks, polls_untimed (c := .write s v) ht]
  · obtain ⟨path, rfl⟩ := not_forall_not.mp ht
    refine ⟨hcells, fun path' => ?_, ?_⟩
    · rw [MemoryBoard.store_timestamp, h.ticks, poll_ticksAfter, PerPath.get_set]
      unfold epochPoll
      by_cases hpath : path = path'
      · subst hpath
        rw [if_pos rfl, latest_write_self]
      · have hne : Setting.timestamp path ≠ .timestamp path' := by
          rintro ⟨⟩
          exact hpath rfl
        rw [if_neg hpath, h.epoch path', latest_write_other hne]
        rfl
    · rw [MemoryBoard.store_timestamp, h.ticks, poll_ticksAfter, polls_timed rfl]

end Remembers

end RadioControl
