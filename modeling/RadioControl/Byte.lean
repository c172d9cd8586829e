/-!
# Bytes

`forall_byte` proves a property of all bytes value by value, and `satSucc` counts in a byte without
wrapping around.
-/

namespace RadioControl

/-- A property of all bytes, checked value by value. -/
theorem forall_byte {P : UInt8 → Prop} (h : ∀ n < 256, P (UInt8.ofNat n)) (b : UInt8) : P b := by
  have hb := h b.toNat b.toNat_lt
  rwa [UInt8.ofNat_toNat] at hb

/-- The successor of a byte; the largest byte stays. -/
def satSucc (b : UInt8) : UInt8 := if b = 255 then 255 else b + 1

theorem toNat_satSucc (b : UInt8) : (satSucc b).toNat = min (b.toNat + 1) 255 := by
  revert b
  exact forall_byte (by decide +kernel)

end RadioControl
