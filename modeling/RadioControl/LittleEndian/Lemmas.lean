import Mathlib.Tactic.Ring
import RadioControl.LittleEndian

/-!
# Words as base-256 numbers

`digit n k` is the byte that stands for `256 ^ k` in the number `n`.

* `byteAt_eq_digit`: `byteAt` reads one digit.
* `toNat_orByte`: a byte set above all others adds a leading digit.
* `number_append`, `number_lt`: the number of a list of bytes, by its parts and by its length.
* `digit_congr`, `number_map_digit`: the low digits of a number, and the number that they make.
-/

namespace RadioControl.LittleEndian

theorem two_pow_eight_mul (k : Nat) : 2 ^ (8 * k) = 256 ^ k := by
  rw [pow_mul, show (2 : Nat) ^ 8 = 256 from rfl]

/-- Digit `k` of the number `n` in base 256, counted from the least significant. -/
def digit (n k : Nat) : UInt8 := UInt8.ofNat (n / 256 ^ k % 256)

@[simp] theorem toNat_digit (n k : Nat) : (digit n k).toNat = n / 256 ^ k % 256 := by
  rw [digit, UInt8.toNat_ofNat', Nat.mod_mod]

/-- `byteAt` reads one digit. -/
theorem byteAt_eq_digit (w : UInt64) (k : Nat) : byteAt w k = digit w.toNat k := by
  apply UInt8.toNat_inj.mp
  rw [byteAt, Nat.shiftRight_eq_div_pow, two_pow_eight_mul]
  simp

/-- A byte set above all others adds a leading digit. -/
theorem toNat_orByte {w : UInt64} {k : Nat} (b : UInt8) (hk : k < 8) (hw : w.toNat < 256 ^ k) :
    (orByte w k b).toNat = w.toNat + b.toNat * 256 ^ k := by
  have hb : b.toNat * 256 ^ k < 2 ^ 64 :=
    calc b.toNat * 256 ^ k < 256 * 256 ^ k :=
          Nat.mul_lt_mul_of_pos_right b.toNat_lt (Nat.pow_pos (by decide))
      _ = 256 ^ (k + 1) := (pow_succ' 256 k).symm
      _ ≤ 256 ^ 8 := Nat.pow_le_pow_right (by decide) hk
  have hs : (b.toNat <<< (8 * k)).toUInt64.toNat = 2 ^ (8 * k) * b.toNat := by
    rw [Nat.shiftLeft_eq, two_pow_eight_mul, mul_comm]
    simpa [mul_comm] using Nat.mod_eq_of_lt hb
  rw [orByte, UInt64.toNat_or, hs, Nat.or_comm, ← Nat.two_pow_add_eq_or_of_lt
    (by rwa [two_pow_eight_mul]), two_pow_eight_mul, mul_comm, add_comm]

theorem number_lt (bs : List UInt8) : number bs < 256 ^ bs.length := by
  induction bs with
  | nil => simp
  | cons b bs ih =>
    have hb := b.toNat_lt
    rw [number_cons, List.length_cons, pow_succ]
    omega

theorem number_append (as bs : List UInt8) :
    number (as ++ bs) = number as + 256 ^ as.length * number bs := by
  induction as with
  | nil => simp
  | cons a as ih =>
    rw [List.cons_append, number_cons, number_cons, ih, List.length_cons, pow_succ]
    ring

/-- A last byte is the leading digit. -/
theorem number_concat (bs : List UInt8) (b : UInt8) :
    number (bs ++ [b]) = number bs + b.toNat * 256 ^ bs.length := by
  rw [number_append, number_cons, number_nil, mul_comm, mul_zero, add_zero]

/-- The low `w` digits of a number depend on the number modulo `256 ^ w` only. -/
theorem digit_congr {m n w k : Nat} (h : m % 256 ^ w = n % 256 ^ w) (hk : k < w) :
    digit m k = digit n k := by
  have hlow : ∀ m : Nat, m % 256 ^ w / 256 ^ k % 256 = m / 256 ^ k % 256 := by
    intro m
    obtain ⟨j, rfl⟩ := Nat.exists_eq_add_of_lt hk
    have hp : 256 ^ (k + j + 1) = 256 ^ k * (256 * 256 ^ j) := by
      ring
    rw [hp, Nat.mod_mul_right_div_self, Nat.mod_mul_right_mod]
  apply UInt8.toNat_inj.mp
  rw [toNat_digit, toNat_digit, ← hlow m, h, hlow]

/-- The low `w` digits of a number make the number modulo `256 ^ w`. -/
theorem number_map_digit (n w : Nat) : number ((List.range w).map (digit n)) = n % 256 ^ w := by
  induction w with
  | zero => simp [Nat.mod_one]
  | succ w ih =>
    rw [List.range_succ, List.map_append, List.map_singleton, number_concat, ih, List.length_map,
      List.length_range, toNat_digit, Nat.mod_pow_succ, mul_comm (256 ^ w)]

end RadioControl.LittleEndian
