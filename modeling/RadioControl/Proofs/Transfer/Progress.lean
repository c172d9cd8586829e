import Mathlib
import RadioControl.LittleEndian.Lemmas
import RadioControl.Proofs.Setting.Region
import RadioControl.Transfer.Engine

/-!
# Progress through a setting

`Progress.Underway`: in the middle of a setting, at least one byte has moved and at least one has
not. This is what the engine keeps between two frames, and enough to know that

* a byte more or less never saturates the count (`toNat_moved_advance`, `toNat_moved_put`) and never
  overlaps the bytes already there (`toNat_value_put`);
* the next address lies inside the setting and is the start of no setting (`next_ne_start`), so a
  strict engine never takes the first tuple of a setting for the rest of another
  (`keep_strict_start`).
-/

namespace RadioControl

namespace Progress

/-- In the middle of a setting. -/
structure Underway (p : Progress) : Prop where
  begun : 1 ≤ p.moved.toNat
  unfinished : p.moved.toNat < p.setting.width.toNat

@[simp] theorem toNat_moved_start (s : Setting) (v : UInt64) : (start s v).moved.toNat = 0 := rfl

@[simp] theorem value_start (s : Setting) (v : UInt64) : (start s v).value = v := rfl

@[simp] theorem setting_advance (p : Progress) : p.advance.setting = p.setting := rfl

@[simp] theorem setting_put (p : Progress) (b : UInt8) : (p.put b).setting = p.setting := rfl

theorem finished_iff {p : Progress} : p.Finished ↔ p.setting.width.toNat ≤ p.moved.toNat :=
  UInt8.le_iff_toNat_le

theorem not_finished_iff {p : Progress} : ¬p.Finished ↔ p.moved.toNat < p.setting.width.toNat := by
  rw [finished_iff, Nat.not_le]

theorem Underway.not_finished {p : Progress} (h : p.Underway) : ¬p.Finished :=
  not_finished_iff.mpr h.unfinished

/-- The count of moved bytes goes up by one: it never gets as far as 255. -/
theorem toNat_moved_advance {p : Progress} (h : p.moved.toNat ≤ 8) :
    p.advance.moved.toNat = p.moved.toNat + 1 := by
  show (satSucc p.moved).toNat = _
  rw [toNat_satSucc]
  omega

theorem toNat_moved_put {p : Progress} (b : UInt8) (h : p.moved.toNat ≤ 8) :
    (p.put b).moved.toNat = p.moved.toNat + 1 :=
  toNat_moved_advance (p := p) h

/-- What has been collected so far is a number of as many bytes as have moved. -/
def Fits (p : Progress) : Prop := p.value.toNat < 256 ^ p.moved.toNat

theorem fits_start_zero (s : Setting) : (start s 0).Fits := by
  show 0 < 256 ^ 0
  decide

/-- A byte is set above the bytes that are already there. -/
theorem toNat_value_put {p : Progress} (b : UInt8) (h : p.moved.toNat < 8) (hf : p.Fits) :
    (p.put b).value.toNat = p.value.toNat + b.toNat * 256 ^ p.moved.toNat :=
  LittleEndian.toNat_orByte b h hf

theorem Fits.put {p : Progress} (b : UInt8) (h : p.moved.toNat < 8) (hf : p.Fits) :
    (p.put b).Fits := by
  have hb : b.toNat * 256 ^ p.moved.toNat ≤ 255 * 256 ^ p.moved.toNat :=
    Nat.mul_le_mul_right _ (Nat.le_of_lt_succ b.toNat_lt)
  unfold Fits at hf ⊢
  rw [toNat_value_put b h hf, toNat_moved_put b (Nat.le_of_lt h), pow_succ]
  omega

theorem next_eq (p : Progress) : p.next = p.setting.start + UInt8.ofNat p.moved.toNat := by
  rw [UInt8.ofNat_toNat]
  rfl

/-- The next address names the setting that is under way. -/
theorem atAddress_next {p : Progress} (h : p.moved.toNat < p.setting.width.toNat) :
    Setting.atAddress p.next = p.setting := by
  rw [next_eq, Setting.atAddress_start_add h]

/-- No setting starts in the middle of another. -/
theorem Underway.next_ne_start {p : Progress} (h : p.Underway) {s : Setting}
    (hs : s ≠ .unmapped) : p.next ≠ s.start := by
  intro he
  have hps : p.setting = s := by
    rw [← atAddress_next h.unfinished, he, Setting.atAddress_start hs]
  have hn := congrArg UInt8.toNat he
  rw [next_eq, Setting.toNat_start_add h.unfinished, hps] at hn
  have := h.begun
  omega

end Progress

namespace Policy

/-- A transfer goes on at an address that its policy does not mind. -/
theorem keep_eq_some_iff {policy : Policy} {p? : Option Progress} {address : UInt8}
    {p : Progress} : policy.keep p? address = some p ↔
      p? = some p ∧ (policy = .strict → p.next = address) := by
  cases policy with
  | trust => simp
  | strict =>
    cases p? with
    | none => simp
    | some q =>
      rw [keep_strict]
      by_cases hq : q.next = address
      · rw [if_pos hq]
        constructor
        · rintro h
          cases h
          exact ⟨rfl, fun _ => hq⟩
        · exact fun h => h.1
      · rw [if_neg hq]
        constructor
        · exact fun h => nomatch h
        · rintro ⟨h, hn⟩
          cases h
          exact absurd (hn rfl) hq

/-- A strict engine takes the first address of a setting for a beginning. -/
theorem keep_strict_start {p? : Option Progress} (h : ∀ p, p? = some p → p.Underway)
    {s : Setting} (hs : s ≠ .unmapped) : keep .strict p? s.start = none := by
  cases p? with
  | none => rfl
  | some p => rw [keep_strict, if_neg ((h p rfl).next_ne_start hs)]

end Policy

end RadioControl
