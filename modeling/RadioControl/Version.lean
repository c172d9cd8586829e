/-!
# Firmware versions

A version is ordered by `major`, then `minor`, then `patch`, and packs into one 32-bit word, `major`
in the lowest byte. `ofPacked_packed`: packing loses nothing.
-/

namespace RadioControl

/-- A firmware version; the order is lexicographic. -/
structure Version where
  major : UInt8
  minor : UInt8
  patch : UInt16
  deriving DecidableEq, Repr, Ord

namespace Version

/-- The word `patch`, `minor`, `major`, from the most to the least significant bits. -/
def packed (v : Version) : UInt32 :=
  v.major.toUInt32 ||| v.minor.toUInt32 <<< 8 ||| v.patch.toUInt32 <<< 16

/-- The version that a word holds; every word holds one. -/
def ofPacked (w : UInt32) : Version where
  major := w.toUInt8
  minor := (w >>> 8).toUInt8
  patch := (w >>> 16).toUInt16

/-- The version of this firmware. -/
def firmware : Version := ⟨0, 1, 0⟩

/-- The three fields are the digits of the packed word. -/
theorem toNat_packed (v : Version) :
    v.packed.toNat = v.major.toNat + 256 * v.minor.toNat + 65536 * v.patch.toNat := by
  have h1 := v.major.toNat_lt
  have h2 := v.minor.toNat_lt
  have h3 := v.patch.toNat_lt
  have e2 : (v.minor.toNat <<< 8) % 2 ^ 32 = 2 ^ 8 * v.minor.toNat := by
    rw [Nat.shiftLeft_eq, Nat.mul_comm]; omega
  have e3 : (v.patch.toNat <<< 16) % 2 ^ 32 = 2 ^ 16 * v.patch.toNat := by
    rw [Nat.shiftLeft_eq, Nat.mul_comm]; omega
  simp only [packed, UInt32.toNat_or, UInt32.toNat_shiftLeft, UInt8.toNat_toUInt32,
    UInt16.toNat_toUInt32, UInt32.toNat_ofNat, Nat.reduceMod, Nat.reducePow] at *
  rw [e2, e3, Nat.or_comm v.major.toNat, ← Nat.two_pow_add_eq_or_of_lt (i := 8) h1, Nat.or_comm,
    ← Nat.two_pow_add_eq_or_of_lt (i := 16) (by omega)]
  omega

/-- Packing loses nothing. -/
theorem ofPacked_packed (v : Version) : ofPacked v.packed = v := by
  obtain ⟨major, minor, patch⟩ := v
  have h := toNat_packed ⟨major, minor, patch⟩
  have h1 := major.toNat_lt
  have h2 := minor.toNat_lt
  have h3 := patch.toNat_lt
  simp only [ofPacked, mk.injEq, ← UInt8.toNat_inj, ← UInt16.toNat_inj, UInt32.toNat_toUInt8,
    UInt32.toNat_toUInt16, UInt32.toNat_shiftRight, UInt32.toNat_ofNat, h,
    Nat.shiftRight_eq_div_pow, Nat.reduceMod, Nat.reducePow] at *
  omega

end Version

end RadioControl
