import Mathlib
import RadioControl.Setting.Basic

/-!
# The regions of the settings

* `width_le_eight`, `start_add_width_le`: a region is at most eight bytes wide and ends before
  address 256, so no address in it wraps around.
* `atAddress_start_add`: the address of each byte of a setting names that setting.
-/

namespace RadioControl.Setting

theorem width_le_eight (s : Setting) : s.width.toNat ≤ 8 := by
  cases s with
  | correction path term => cases path <;> cases term <;> decide
  | timestamp path => cases path <;> decide
  | _ => decide

theorem start_add_width_le (s : Setting) : s.start.toNat + s.width.toNat ≤ 256 := by
  cases s with
  | correction path term => cases path <;> cases term <;> decide
  | timestamp path => cases path <;> decide
  | _ => decide

theorem width_pos {s : Setting} (h : s ≠ .unmapped) : 0 < s.width.toNat := by
  have all : ∀ s ∈ mapped, 0 < s.width.toNat := by decide
  exact all s (mem_mapped h)

/-- The address of byte `k` of a setting, as a number. -/
theorem toNat_start_add {s : Setting} {k : Nat} (hk : k < s.width.toNat) :
    (s.start + UInt8.ofNat k).toNat = s.start.toNat + k := by
  have hle := s.start_add_width_le
  rw [UInt8.toNat_add, UInt8.toNat_ofNat']
  omega

theorem contains_start_add {s : Setting} {k : Nat} (hk : k < s.width.toNat) :
    s.region.Contains (s.start + UInt8.ofNat k) := by
  have ha := toNat_start_add hk
  unfold start at ha
  unfold width at hk
  refine ⟨?_, ?_⟩ <;> simp only [start, ha] <;> omega

/-- The address of each byte of a setting names that setting. -/
theorem atAddress_start_add {s : Setting} {k : Nat} (hk : k < s.width.toNat) :
    atAddress (s.start + UInt8.ofNat k) = s :=
  atAddress_eq (contains_start_add hk)

theorem atAddress_start {s : Setting} (h : s ≠ .unmapped) : atAddress s.start = s := by
  have := atAddress_start_add (width_pos h)
  rwa [show UInt8.ofNat 0 = 0 from rfl, UInt8.add_zero] at this

end RadioControl.Setting
