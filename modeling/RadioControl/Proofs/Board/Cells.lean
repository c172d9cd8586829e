import Mathlib
import RadioControl.Board.Memory
import RadioControl.Proofs.Transfer.Cut

/-!
# The cells of a board in memory

`MemoryBoard.Cell` names what a board in memory holds: everything but the tick source, which moves
by itself. An order sets one cell (`Board.Order.cell`) and a query sets none.

* `cell_fetch`, `cell_store`: reading a setting changes no cell, writing it at most one.
* `cell_run`: so a frame in the middle of any transfer changes at most one cell, and one that
  reads, or that has no tuple, changes none.
-/

namespace RadioControl

namespace MemoryBoard

/-- What a board in memory holds. -/
inductive Cell where
  | control
  | correction (path : Path) (term : IqTerm)
  | epoch (path : Path)
  | trim
  | synthWord
  | expansion
  | expansionDirection
  deriving DecidableEq

/-- What is in a cell. -/
abbrev Cell.Value : Cell → Type
  | .control => UInt32
  | .correction _ _ => Int16
  | .epoch _ => UInt64
  | .trim => Option UInt16
  | .synthWord => Option UInt32
  | .expansion => UInt32
  | .expansionDirection => UInt32

variable {θ : Type}

/-- The value in a cell. -/
def cell (b : MemoryBoard θ) : (c : Cell) → c.Value
  | .control => b.control
  | .correction path term => (b.iq.get path).get term
  | .epoch path => b.epoch.get path
  | .trim => b.trim
  | .synthWord => b.synthWord
  | .expansion => b.expansion
  | .expansionDirection => b.expansionDirection

end MemoryBoard

/-- The cell that an order sets. -/
def Board.Order.cell : Board.Order → MemoryBoard.Cell
  | .setControl _ => .control
  | .setCorrection path term _ => .correction path term
  | .resetTimestamp path => .epoch path
  | .setTrim _ => .trim
  | .sendSynthWord _ => .synthWord
  | .setExpansion _ => .expansion
  | .setExpansionDirection _ => .expansionDirection

namespace MemoryBoard

variable {θ : Type} [TickSource θ]

/-- An order sets its own cell only. -/
theorem cell_order (o : Board.Order) (b : MemoryBoard θ) {c : Cell} (hc : c ≠ o.cell) :
    (order o b).2.cell c = b.cell c := by
  cases o with
  | setCorrection path term value =>
    cases c with
    | correction path' term' =>
      show ((b.iq.set ((b.iq.get path).set value term) path).get path').get term' = _
      rw [PerPath.get_set]
      by_cases hp : path = path'
      · subst hp
        have ht : term ≠ term' := fun ht => hc (ht ▸ rfl)
        rw [if_pos rfl, IqCorrection.get_set, if_neg ht]
        rfl
      · rw [if_neg hp]
        rfl
    | _ => rfl
  | resetTimestamp path =>
    cases c with
    | epoch path' =>
      have hp : path ≠ path' := fun hp => hc (hp ▸ rfl)
      show (b.epoch.set (TickSource.poll b.ticks).1 path).get path' = _
      rw [PerPath.get_set, if_neg hp]
      rfl
    | _ => rfl
  | _ => cases c <;> first | rfl | exact absurd rfl hc

/-- A query sets no cell. -/
theorem cell_ask (q : Board.Query) (b : MemoryBoard θ) : (ask q b).2.cell = b.cell := by
  cases q with
  | timestamp path =>
    funext c
    cases c <;> rfl
  | _ => rfl

theorem cell_fetch (s : Setting) (b : MemoryBoard θ) : (s.fetch b).2.cell = b.cell := by
  cases s with
  | control => exact cell_ask .control b
  | correction path term => exact cell_ask (.correction path term) b
  | firmware => exact cell_ask .firmware b
  | timestamp path => exact cell_ask (.timestamp path) b
  | expansion => exact cell_ask .expansion b
  | expansionDirection => exact cell_ask .expansionDirection b
  | trim | synthWord | unmapped => rfl

theorem cell_store (s : Setting) (w : UInt64) (b : MemoryBoard θ) :
    ∃ c₀, ∀ c ≠ c₀, (s.store w b).2.cell c = b.cell c := by
  unfold Setting.store
  cases s.order? w with
  | some o => exact ⟨o.cell, fun c hc => cell_order o b hc⟩
  | none => exact ⟨.control, fun c _ => rfl⟩

/-! ## Frames -/

theorem cell_serve (policy : Policy) (p? : Option Progress) (ts : List Tuple) (b : MemoryBoard θ) :
    (Transfer.serve policy p? ts b).2.cell = b.cell := by
  induction ts generalizing p? b with
  | nil => rfl
  | cons t ts ih =>
    have hopen : (Transfer.openRead policy p? t.address b).2.cell = b.cell := by
      unfold Transfer.openRead
      cases policy.keep p? t.address with
      | some p => rfl
      | none => exact cell_fetch _ b
    rw [Transfer.serve_cons_apply]
    by_cases hf : (Transfer.openRead policy p? t.address b).1.advance.Finished
    · simp only [if_pos hf]
      exact hopen
    · simp only [if_neg hf]
      exact (ih _ _).trans hopen

theorem cell_settle (p? : Option Progress) (b : MemoryBoard θ) :
    ∃ c₀, ∀ c ≠ c₀, (Transfer.settle p? b).2.cell c = b.cell c := by
  cases p? with
  | none => exact ⟨.control, fun c _ => rfl⟩
  | some p =>
    by_cases hf : p.Finished
    · simp only [Transfer.settle, if_pos hf]
      exact cell_store p.setting p.value b
    · simp only [Transfer.settle, if_neg hf]
      exact ⟨.control, fun c _ => rfl⟩

/-- A frame changes at most one cell, whatever is under way. -/
theorem cell_run (t : Transfer) (direction : Direction) (ts : List Tuple) (b : MemoryBoard θ) :
    ∃ c₀, ∀ c ≠ c₀, (t.run direction ts b).2.cell c = b.cell c := by
  cases direction with
  | read => exact ⟨.control, fun c _ => congrFun (cell_serve _ _ ts b) c⟩
  | write => exact cell_settle _ b

theorem cell_run_read (t : Transfer) (ts : List Tuple) (b : MemoryBoard θ) :
    (t.run .read ts b).2.cell = b.cell :=
  cell_serve _ _ ts b

/-- A frame with no tuple changes no cell, unless a write were left that is finished. -/
theorem cell_run_nil {t : Transfer} (ht : ∀ p, t.activity.writing? = some p → ¬p.Finished)
    (direction : Direction) (b : MemoryBoard θ) : (t.run direction [] b).2.cell = b.cell := by
  cases direction with
  | read => rfl
  | write => exact congrArg cell (Transfer.settle_of_open ht b).2

end MemoryBoard

end RadioControl
