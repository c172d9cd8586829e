import RadioControl.Board.Basic
import RadioControl.Byte

/-!
# Settings

The host sees the board as a space of 256 byte addresses. Each setting covers a region of it, and
the regions are disjoint (`atAddress_eq`), so an address names at most one setting; `unmapped`
stands for the addresses in no region.
-/

namespace RadioControl

/-- What an address of the board can name. -/
inductive Setting where
  | control
  | correction (path : Path) (term : IqTerm)
  | firmware
  | timestamp (path : Path)
  | trim
  | synthWord
  | expansion
  | expansionDirection
  /-- No setting. -/
  | unmapped
  deriving DecidableEq, Repr

/-- What the host may do with a setting. -/
inductive Access where
  | readWrite
  | readOnly
  | writeOnly
  /-- A read returns the value, and any write resets it. -/
  | readReset
  | none
  deriving DecidableEq, Repr

/-- A run of addresses. -/
structure Region where
  start : UInt8
  width : UInt8
  deriving DecidableEq, Repr

namespace Region

/-- The address `a` lies in the region; a region that would run past address 255 ends there. -/
def Contains (r : Region) (a : UInt8) : Prop :=
  r.start.toNat ≤ a.toNat ∧ a.toNat < r.start.toNat + r.width.toNat

instance (r : Region) (a : UInt8) : Decidable (r.Contains a) := inferInstanceAs (Decidable (_ ∧ _))

def isEmpty (r : Region) : Bool := r.width == 0

end Region

namespace Setting

/-- The addresses of a setting. What is unmapped has none. -/
def region : Setting → Region
  | .control => ⟨0, 4⟩
  | .correction .rx .gain => ⟨4, 2⟩
  | .correction .rx .phase => ⟨6, 2⟩
  | .correction .tx .gain => ⟨8, 2⟩
  | .correction .tx .phase => ⟨10, 2⟩
  | .firmware => ⟨12, 4⟩
  | .timestamp .rx => ⟨16, 8⟩
  | .timestamp .tx => ⟨24, 8⟩
  | .trim => ⟨34, 2⟩
  | .synthWord => ⟨36, 4⟩
  | .expansion => ⟨40, 4⟩
  | .expansionDirection => ⟨44, 4⟩
  | .unmapped => ⟨255, 0⟩

def start (s : Setting) : UInt8 := s.region.start

/-- The number of bytes of a setting. -/
def width (s : Setting) : UInt8 := s.region.width

def access : Setting → Access
  | .control | .correction _ _ | .expansion | .expansionDirection => .readWrite
  | .firmware => .readOnly
  | .timestamp _ => .readReset
  | .trim | .synthWord => .writeOnly
  | .unmapped => .none

/-- The settings that have addresses, in the order of their addresses. -/
def mapped : List Setting :=
  [.control, .correction .rx .gain, .correction .rx .phase, .correction .tx .gain,
    .correction .tx .phase, .firmware, .timestamp .rx, .timestamp .tx, .trim, .synthWord,
    .expansion, .expansionDirection]

/-- The settings whose region has the address. -/
def owners (a : UInt8) : List Setting := mapped.filter fun s => s.region.Contains a

/-- The setting that an address names. -/
def atAddress (a : UInt8) : Setting :=
  (mapped.find? fun s => s.region.Contains a).getD .unmapped

theorem mem_mapped {s : Setting} (h : s ≠ .unmapped) : s ∈ mapped := by
  cases s with
  | correction path term => cases path <;> cases term <;> decide
  | timestamp path => cases path <;> decide
  | unmapped => exact absurd rfl h
  | _ => decide

/-- The regions are disjoint, so an address in a region names its setting. -/
theorem atAddress_eq {s : Setting} {a : UInt8} (h : s.region.Contains a) : atAddress a = s := by
  have hs : s ≠ .unmapped := by
    rintro rfl
    exact absurd h.2 (Nat.not_lt_of_le h.1)
  have all : ∀ s ∈ mapped, ∀ n < 256, s.region.Contains (UInt8.ofNat n) →
      atAddress (UInt8.ofNat n) = s := by decide +kernel
  exact forall_byte (P := fun a => s.region.Contains a → atAddress a = s)
    (all s (mem_mapped hs)) a h

end Setting

end RadioControl
