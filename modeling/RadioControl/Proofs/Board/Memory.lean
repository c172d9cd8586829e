import Mathlib
import RadioControl.Board.Memory
import RadioControl.LittleEndian.Lemmas
import RadioControl.Setting.Value

/-!
# The settings of a board in memory

A setting is a cell of the board (`Setting.IsCell`), a timestamp, or nothing that a write can change
and a read can show.

* `fetch_store_kept`, `fetch_store_other`: a cell shows what it keeps of the value that was last
  stored in it (`Setting.kept`), which has the low bytes of that value (`fetch_store_self`).
* `fetch_timestamp`, `store_timestamp`: what the tick source has to do with it.
* `tick`: the answers of a tick source, one after another.
-/

namespace RadioControl

/-! ## Cells -/

/-- What is written to the setting can be read back. -/
def Setting.IsCell : Setting → Prop
  | .control | .correction _ _ | .expansion | .expansionDirection => True
  | _ => False

namespace Setting

/-- The low 16 bits of a word, with their sign extended to the whole word. -/
def signExtended (v : UInt64) : UInt64 := ⟨(v.toBitVec.setWidth 16).signExtend 64⟩

/-- What a setting keeps of a value that is written to it: a correction is a signed number of
16 bits, and any other has 32 bits. -/
def kept : Setting → UInt64 → UInt64
  | .correction _ _, v => signExtended v
  | _, v => UInt64.ofNat (v.toNat % 2 ^ 32)

theorem correctionWord_wordCorrection (v : UInt64) :
    correctionWord (wordCorrection v) = signExtended v := rfl

/-- The low 16 bits are the same with the sign and without. -/
theorem toNat_signExtended (v : UInt64) :
    (signExtended v).toNat % 2 ^ 16 = v.toNat % 2 ^ 16 := by
  have hx : (v.toBitVec.setWidth 16).toNat = v.toNat % 2 ^ 16 := BitVec.toNat_setWidth ..
  have hs : (signExtended v).toNat = ((v.toBitVec.setWidth 16).signExtend 64).toNat := rfl
  rw [hs, BitVec.toNat_signExtend, BitVec.toNat_setWidth, hx]
  split <;> omega

/-- A cell keeps the low bytes, as many as it has. -/
theorem toNat_kept {s : Setting} (hs : s.IsCell) (v : UInt64) :
    (s.kept v).toNat % 256 ^ s.width.toNat = v.toNat % 256 ^ s.width.toNat := by
  have h32 : (UInt64.ofNat (v.toNat % 2 ^ 32)).toNat % 2 ^ 32 = v.toNat % 2 ^ 32 := by
    rw [UInt64.toNat_ofNat']
    omega
  cases s with
  | control | expansion | expansionDirection => exact h32
  | correction path term =>
    have hw : 256 ^ (Setting.correction path term).width.toNat = 2 ^ 16 := by
      cases path <;> cases term <;> rfl
    rw [hw]
    exact toNat_signExtended v
  | _ => exact absurd hs id

end Setting

namespace MemoryBoard

variable {τ : Type} [TickSource τ]

theorem fetch_correction (path : Path) (term : IqTerm) (b : MemoryBoard τ) :
    ((Setting.correction path term).fetch b).1 =
      Setting.correctionWord ((b.iq.get path).get term) := rfl

theorem iq_store_correction (path : Path) (term : IqTerm) (v : UInt64) (b : MemoryBoard τ) :
    ((Setting.correction path term).store v b).2.iq =
      b.iq.set ((b.iq.get path).set (Setting.wordCorrection v) term) path := rfl

/-- A cell shows what it keeps of the value that was written to it. -/
theorem fetch_store_kept {s : Setting} (hs : s.IsCell) (v : UInt64) (b : MemoryBoard τ) :
    (s.fetch (s.store v b).2).1 = s.kept v := by
  have h32 : v.toUInt32.toUInt64 = UInt64.ofNat (v.toNat % 2 ^ 32) := by
    rw [← UInt64.toNat_inj, UInt32.toNat_toUInt64, UInt64.toNat_toUInt32, UInt64.toNat_ofNat']
    omega
  cases s with
  | control | expansion | expansionDirection => exact h32
  | correction path term =>
    rw [fetch_correction, iq_store_correction, PerPath.get_set, if_pos rfl, IqCorrection.get_set,
      if_pos rfl]
    exact Setting.correctionWord_wordCorrection v
  | _ => exact absurd hs id

/-- A cell has room for the low bytes of a value. -/
theorem fetch_store_self {s : Setting} (hs : s.IsCell) (v : UInt64) (b : MemoryBoard τ) :
    (s.fetch (s.store v b).2).1.toNat % 256 ^ s.width.toNat = v.toNat % 256 ^ s.width.toNat := by
  rw [fetch_store_kept hs, Setting.toNat_kept hs]

/-- A write to another setting leaves a cell as it is. -/
theorem fetch_store_other {s s' : Setting} (hs : s.IsCell) (hne : s ≠ s') (v : UInt64)
    (b : MemoryBoard τ) : (s.fetch (s'.store v b).2).1 = (s.fetch b).1 := by
  cases s with
  | control | expansion | expansionDirection =>
    cases s' <;> first | rfl | exact absurd rfl hne
  | correction path term =>
    cases s' with
    | correction path' term' =>
      rw [fetch_correction, fetch_correction, iq_store_correction, PerPath.get_set]
      split
      · rename_i hp
        subst hp
        have ht : term' ≠ term := by
          rintro rfl
          exact hne rfl
        rw [IqCorrection.get_set, if_neg ht]
      · rfl
    | _ => rfl
  | _ => exact absurd hs id

/-! ## Timestamps -/

theorem fetch_timestamp (path : Path) (b : MemoryBoard τ) :
    (Setting.timestamp path).fetch b =
      ((TickSource.poll b.ticks).1 - b.epoch.get path,
        { b with ticks := (TickSource.poll b.ticks).2 }) := rfl

theorem store_timestamp (path : Path) (v : UInt64) (b : MemoryBoard τ) :
    (Setting.timestamp path).store v b =
      ((), { b with
        ticks := (TickSource.poll b.ticks).2
        epoch := b.epoch.set (TickSource.poll b.ticks).1 path }) := rfl

theorem fetch_with_ticks {s : Setting} (hs : s.IsCell) (b : MemoryBoard τ) (ticks : τ) :
    (s.fetch { b with ticks }).1 = (s.fetch b).1 := by
  cases s with
  | control | correction | expansion | expansionDirection => rfl
  | _ => exact absurd hs id

/-- No setting but a timestamp has to do with the ticks. -/
theorem ticks_store {s : Setting} (hs : ∀ path, s ≠ .timestamp path) (v : UInt64)
    (b : MemoryBoard τ) : (s.store v b).2.ticks = b.ticks ∧ (s.store v b).2.epoch = b.epoch := by
  cases s with
  | timestamp path => exact absurd rfl (hs path)
  | _ => exact ⟨rfl, rfl⟩

/-- A read of a setting that is no timestamp leaves the board as it is. -/
theorem fetch_of_ne_timestamp {s : Setting} (hs : ∀ path, s ≠ .timestamp path)
    (b : MemoryBoard τ) : (s.fetch b).2 = b := by
  cases s with
  | timestamp path => exact absurd rfl (hs path)
  | _ => rfl

end MemoryBoard

/-! ## Ticks -/

section Ticks

variable {τ : Type} [TickSource τ]

/-- The tick source after `n` polls. -/
def ticksAfter (start : τ) : Nat → τ
  | 0 => start
  | n + 1 => (TickSource.poll (ticksAfter start n)).2

/-- What poll number `n` answers, the first being number 0. -/
def tick (start : τ) (n : Nat) : UInt64 := (TickSource.poll (ticksAfter start n)).1

theorem poll_ticksAfter (start : τ) (n : Nat) :
    TickSource.poll (ticksAfter start n) = (tick start n, ticksAfter start (n + 1)) := rfl

end Ticks

end RadioControl
