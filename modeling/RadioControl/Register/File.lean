import RadioControl.Register.Bank

/-!
# Register files

`RegisterFile n` is `n` bytes of memory. The one with 256 of them is the plainest register bank: a
read returns what was last written.
-/

namespace RadioControl

/-- A memory of `n` registers. -/
structure RegisterFile (n : Nat) where
  cells : Vector UInt8 n
  deriving DecidableEq

namespace RegisterFile

variable {n : Nat}

def zero : RegisterFile n := ⟨Vector.replicate n 0⟩

def get (m : RegisterFile n) (i : Fin n) : UInt8 := m.cells[i]

def set (m : RegisterFile n) (i : Fin n) (v : UInt8) : RegisterFile n := ⟨m.cells.set i v⟩

theorem get_zero (i : Fin n) : (zero : RegisterFile n).get i = 0 := by
  simp [zero, get]

theorem get_set (m : RegisterFile n) (i j : Fin n) (v : UInt8) :
    (m.set i v).get j = if i = j then v else m.get j := by
  simp only [get, set, Fin.getElem_fin, Vector.getElem_set, Fin.ext_iff]

theorem ext {m m' : RegisterFile n} (h : ∀ i, m.get i = m'.get i) : m = m' := by
  cases m with
  | mk cells =>
    cases m' with
    | mk cells' =>
      congr 1
      exact Vector.ext fun i hi => h ⟨i, hi⟩

/-- The registers that are not zero, in order, with their numbers. -/
def nonZero (m : RegisterFile n) : List (Fin n × UInt8) :=
  (List.finRange n).filterMap fun i => if m.get i = 0 then none else some (i, m.get i)

instance instRegisterBank : RegisterBank (RegisterFile 256) where
  read a m := (m.get a.toFin, m)
  write a v m := ((), m.set a.toFin v)

end RegisterFile

end RadioControl
