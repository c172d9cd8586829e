/-!
# Bytes of a 64-bit word

A setting is at most eight bytes wide and travels one byte at a time, least significant first.

* `byteAt w k` is byte `k` of `w`, and `orByte w k b` sets the bits of `b` at byte `k`. Both are
  total in `k`: past the eighth byte there is nothing to read (`byteAt_of_le`) and nothing to set
  (`orByte_of_le`).
* `number bs` is the number whose bytes are `bs`.

That a byte set above all others extends the number by one digit is in
`RadioControl/LittleEndian/Lemmas.lean`.
-/

namespace RadioControl.LittleEndian

/-- Byte `k` of `w`, byte 0 being the least significant; zero past the eighth. -/
def byteAt (w : UInt64) (k : Nat) : UInt8 := (w.toNat >>> (8 * k)).toUInt8

/-- The word `w` with the bits of `b` set at byte `k`; `w` itself past the eighth. -/
def orByte (w : UInt64) (k : Nat) (b : UInt8) : UInt64 := w ||| (b.toNat <<< (8 * k)).toUInt64

/-- The number whose base-256 digits are `bs`, least significant first. -/
def number : List UInt8 → Nat
  | [] => 0
  | b :: bs => b.toNat + 256 * number bs

@[simp] theorem number_nil : number [] = 0 := rfl

@[simp] theorem number_cons (b : UInt8) (bs : List UInt8) :
    number (b :: bs) = b.toNat + 256 * number bs := rfl

theorem byteAt_of_le (w : UInt64) {k : Nat} (hk : 8 ≤ k) : byteAt w k = 0 := by
  have hw : w.toNat < 2 ^ (8 * k) :=
    Nat.lt_of_lt_of_le w.toNat_lt (Nat.pow_le_pow_right (by decide) (by omega))
  rw [byteAt, Nat.shiftRight_eq_div_pow, Nat.div_eq_of_lt hw]
  rfl

theorem orByte_of_le (w : UInt64) (b : UInt8) {k : Nat} (hk : 8 ≤ k) : orByte w k b = w := by
  have h64 : 2 ^ 64 ∣ b.toNat <<< (8 * k) := by
    rw [Nat.shiftLeft_eq]
    exact Nat.dvd_trans (Nat.pow_dvd_pow 2 (by omega)) (Nat.dvd_mul_left _ _)
  have hz : (b.toNat <<< (8 * k)).toUInt64 = 0 := by
    apply UInt64.toNat_inj.mp
    simpa using Nat.mod_eq_zero_of_dvd h64
  rw [orByte, hz]
  simp

end RadioControl.LittleEndian
