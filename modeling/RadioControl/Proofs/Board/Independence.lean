import Mathlib
import RadioControl.Proofs.Board.RegisterMap
import RadioControl.Proofs.Stateful

/-!
# Settings that do not touch each other

A board in memory carries out commands one after another (`Command.performAll`). A part of the board
may belong to one setting: a write to the setting determines it, and no other command touches it
(`Belongs`). It is shown once for each cell, for the trim and for the synthesizer's word, a command
at a time, and `Belongs.performAll` makes of it a fact about runs of any length.

`settings_are_independent`: a read of a setting shows what was last written to it, as the setting
keeps it (`Setting.shown?`), whatever else was read or written.
-/

namespace RadioControl

namespace Command

variable {β : Type} [Board β]

/-- Carry out a command. A read brings the word of the setting. -/
def perform : Command → StateM β (Option UInt64)
  | .write s v => do
    s.store v
    return none
  | .read s => return some (← s.fetch)

/-- What the commands of a run bring. -/
def performAll (cs : List Command) : StateM β (List (Option UInt64)) := cs.mapM perform

/-- The value that was last written to a setting, the commands being given the oldest first. -/
def lastValue (s : Setting) (cs : List Command) : Option UInt64 :=
  (latest s cs.reverse).map Prod.fst

theorem performAll_concat_apply (cs : List Command) (c : Command) (b : β) :
    performAll (cs ++ [c]) b =
      let before := performAll cs b
      let a := perform c before.2
      (before.1 ++ [a.1], a.2) :=
  mapM_append_apply perform cs [c] b

theorem lastValue_concat (s : Setting) (cs : List Command) (c : Command) :
    lastValue s (cs ++ [c]) =
      match c with
      | .write s' v => if s' = s then some v else lastValue s cs
      | .read _ => lastValue s cs := by
  unfold lastValue
  rw [List.reverse_append, List.reverse_singleton, List.singleton_append]
  cases c with
  | write s' v =>
    by_cases h : s' = s
    · subst h
      simp only [latest_write_self, if_true, Option.map_some]
    · simp only [latest_write_other h, if_neg h]
  | read s' => rw [latest_read]

end Command

namespace Setting

/-- What a read of the setting shows if `v?` was last written to it. What a timestamp shows does not
follow from this. -/
def shown? (s : Setting) (v? : Option UInt64) : Option UInt64 :=
  match s with
  | .control | .correction _ _ | .expansion | .expansionDirection =>
    some ((v?.map s.kept).getD 0)
  | .trim | .synthWord => some 0
  | .firmware => some Version.firmware.packed.toUInt64
  | .unmapped => some 0xFFFFFFFFFFFFFFFF
  | .timestamp _ => none

/-- A correction survives as a word. -/
theorem wordCorrection_correctionWord (x : Int16) : wordCorrection (correctionWord x) = x := by
  have hbits : (wordCorrection (correctionWord x)).toBitVec =
      (x.toBitVec.signExtend 64).setWidth 16 := rfl
  rw [← Int16.toBitVec_inj, hbits]
  ext i hi
  rw [BitVec.getElem_setWidth, BitVec.getLsbD_signExtend]
  simp [hi, show i < 64 by omega]

theorem isCell_iff {s : Setting} : s.IsCell ↔ s.access = .readWrite := by
  cases s <;> simp [IsCell, access]

/-- What a cell shows of its latest write. -/
theorem shown?_of_isCell {s : Setting} (hs : s.IsCell) (v? : Option UInt64) :
    s.shown? v? = some ((v?.map s.kept).getD 0) := by
  cases s with
  | control | correction | expansion | expansionDirection => rfl
  | _ => exact absurd hs id

end Setting

/-! ## The parts of a board -/

namespace MemoryBoard

variable {τ : Type} [TickSource τ]

/-- The part of the board that `view` shows belongs to the setting: a write of `v` to the setting
makes it `value v`, and no other command touches it. -/
structure Belongs {α : Type} (view : MemoryBoard τ → α) (s : Setting) (value : UInt64 → α) :
    Prop where
  fetch : ∀ (s' : Setting) (b : MemoryBoard τ), view (s'.fetch b).2 = view b
  store_self : ∀ (v : UInt64) (b : MemoryBoard τ), view (s.store v b).2 = value v
  store_other : ∀ (s' : Setting) (v : UInt64) (b : MemoryBoard τ), s' ≠ s →
    view (s'.store v b).2 = view b

namespace Belongs

variable {α : Type} {view : MemoryBoard τ → α} {s : Setting} {value : UInt64 → α}

theorem perform (h : Belongs view s value) (c : Command) (b : MemoryBoard τ) :
    view (c.perform b).2 =
      match c with
      | .write s' v => if s' = s then value v else view b
      | .read _ => view b := by
  cases c with
  | write s' v =>
    by_cases hs : s' = s
    · subst hs
      exact (h.store_self v b).trans (if_pos rfl).symm
    · exact (h.store_other s' v b hs).trans (if_neg hs).symm
  | read s' => exact h.fetch s' b

/-- After any run the part shows the value that was last written to the setting. -/
theorem performAll (h : Belongs view s value) (cs : List Command) (b : MemoryBoard τ) :
    view (Command.performAll cs b).2 = ((Command.lastValue s cs).map value).getD (view b) := by
  induction cs using List.reverseRecOn with
  | nil => rfl
  | append_singleton cs c ih =>
    rw [Command.performAll_concat_apply, Command.lastValue_concat]
    refine (h.perform c _).trans ?_
    cases c with
    | write s' v =>
      by_cases hs : s' = s
      · simp only [if_pos hs, Option.map_some, Option.getD_some]
      · simp only [if_neg hs, ih]
    | read s' => exact ih

end Belongs

theorem belongs_cell {s : Setting} (hs : s.IsCell) :
    Belongs (τ := τ) (fun b => (s.fetch b).1) s s.kept where
  fetch s' b := by
    by_cases ht : ∀ path, s' ≠ .timestamp path
    · rw [fetch_of_ne_timestamp ht]
    · obtain ⟨path, rfl⟩ := not_forall_not.mp ht
      rw [fetch_timestamp]
      exact fetch_with_ticks hs b _
  store_self v b := fetch_store_kept hs v b
  store_other s' v b hne := fetch_store_other hs (Ne.symm hne) v b

theorem belongs_trim : Belongs (τ := τ) MemoryBoard.trim .trim fun v => some v.toUInt16 where
  fetch s' b := by cases s' <;> rfl
  store_self v b := rfl
  store_other s' v b hne := by cases s' <;> first | rfl | exact absurd rfl hne

theorem belongs_synthWord :
    Belongs (τ := τ) MemoryBoard.synthWord .synthWord fun v => some v.toUInt32 where
  fetch s' b := by cases s' <;> rfl
  store_self v b := rfl
  store_other s' v b hne := by cases s' <;> first | rfl | exact absurd rfl hne

/-- A setting that is no cell shows the same on every board, a timestamp apart. -/
theorem fetch_of_not_isCell {s : Setting} (hs : ¬s.IsCell) (ht : ∀ path, s ≠ .timestamp path)
    (b b' : MemoryBoard τ) : (s.fetch b).1 = (s.fetch b').1 := by
  cases s with
  | firmware | trim | synthWord | unmapped => rfl
  | timestamp path => exact absurd rfl (ht path)
  | _ => exact absurd trivial hs

/-- What is read of a cell, written back to it, changes nothing. -/
theorem store_fetch {s : Setting} (hs : s.IsCell) (b : MemoryBoard τ) :
    (s.store (s.fetch b).1 b).2 = b := by
  have h32 (x : UInt32) : x.toUInt64.toUInt32 = x := UInt32.toUInt32_toUInt64 x
  cases s with
  | control => exact congrArg (fun x => { b with control := x }) (h32 b.control)
  | expansion => exact congrArg (fun x => { b with expansion := x }) (h32 b.expansion)
  | expansionDirection =>
    exact congrArg (fun x => { b with expansionDirection := x }) (h32 b.expansionDirection)
  | correction path term =>
    have hiq : b.iq.set ((b.iq.get path).set ((b.iq.get path).get term) term) path = b.iq := by
      cases path <;> cases term <;> rfl
    have hword := Setting.wordCorrection_correctionWord ((b.iq.get path).get term)
    have hstore : ((Setting.correction path term).store
        ((Setting.correction path term).fetch b).1 b).2.iq = b.iq := by
      rw [iq_store_correction, fetch_correction, hword, hiq]
    exact congrArg (fun iq => { b with iq }) hstore
  | _ => exact absurd hs id

theorem fetch_boot {s : Setting} (hs : s.IsCell) (start : τ) : (s.fetch (boot start)).1 = 0 := by
  cases s with
  | control | expansion | expansionDirection => rfl
  | correction path term => cases path <;> cases term <;> rfl
  | _ => exact absurd hs id

/-- What a setting shows after a run from the start. -/
theorem fetch_performAll (start : τ) (cs : List Command) {s : Setting} {w : UInt64}
    (hw : s.shown? (Command.lastValue s cs) = some w) :
    (s.fetch (Command.performAll cs (boot start)).2).1 = w := by
  by_cases hs : s.IsCell
  · rw [Setting.shown?_of_isCell hs, Option.some_inj] at hw
    rw [(belongs_cell hs).performAll, fetch_boot hs, hw]
  · cases s with
    | firmware | trim | synthWord | unmapped => exact Option.some_inj.mp hw
    | timestamp path => cases hw
    | _ => exact absurd trivial hs

open Command in
/-- The settings of a board in memory are cells that do not touch each other. In a run from the
start, whatever the ticks, a read shows what its setting keeps of the latest write to it; the trim
and the synthesizer's word are those that were last written. On any board a write to a setting is
not seen in another that is no timestamp, a write to the firmware version or to no setting does
nothing, and a setting that can be read and written shows the low bytes of what is written and may
be written back as it was read. -/
theorem settings_are_independent (start : τ) :
    (∀ (earlier later : List Command) (s : Setting) (w : UInt64),
      s.shown? (lastValue s earlier) = some w →
        (performAll (earlier ++ .read s :: later) (boot start)).1[earlier.length]? =
          some (some w)) ∧
    (∀ cs : List Command,
      (performAll cs (boot start)).2.trim.map UInt16.toNat =
        (lastValue .trim cs).map (fun v => v.toNat % 2 ^ 16) ∧
      (performAll cs (boot start)).2.synthWord.map UInt32.toNat =
        (lastValue .synthWord cs).map (fun v => v.toNat % 2 ^ 32)) ∧
    ∀ b : MemoryBoard τ,
      (∀ (s s' : Setting) (v : UInt64), s ≠ s' → (∀ path, s ≠ .timestamp path) →
        (s.fetch (s'.store v b).2).1 = (s.fetch b).1) ∧
      (∀ v : UInt64, (Setting.firmware.store v b).2 = b ∧ (Setting.unmapped.store v b).2 = b) ∧
      ∀ s : Setting, s.access = .readWrite →
        (∀ v : UInt64, (s.fetch (s.store v b).2).1.toNat % 2 ^ (8 * s.width.toNat) =
          v.toNat % 2 ^ (8 * s.width.toNat)) ∧
        (s.store (s.fetch b).1 (s.fetch b).2).2 = b := by
  refine ⟨fun earlier later s w hw => ?_, fun cs => ⟨?_, ?_⟩, fun b => ⟨?_, ?_, ?_⟩⟩
  · have hread : (Command.perform (.read s) (performAll earlier (boot start)).2).1 = some w :=
      congrArg some (fetch_performAll start earlier hw)
    exact (getElem?_mapM_apply Command.perform earlier later (.read s) (boot start)).trans
      (congrArg some hread)
  · rw [belongs_trim.performAll]
    cases lastValue .trim cs with
    | none => rfl
    | some v => exact congrArg some (UInt64.toNat_toUInt16 v)
  · rw [belongs_synthWord.performAll]
    cases lastValue .synthWord cs with
    | none => rfl
    | some v => exact congrArg some (UInt64.toNat_toUInt32 v)
  · intro s s' v hne ht
    by_cases hs : s.IsCell
    · exact fetch_store_other hs hne v b
    · exact fetch_of_not_isCell hs ht _ _
  · exact fun v => ⟨rfl, rfl⟩
  · intro s hs
    have hcell := Setting.isCell_iff.mpr hs
    have hb := fetch_of_ne_timestamp (s := s) (by rintro path rfl; exact hcell) b
    refine ⟨fun v => ?_, by rw [hb, store_fetch hcell]⟩
    rw [LittleEndian.two_pow_eight_mul]
    exact fetch_store_self hcell v b

open Command in
/-- A correction of -1 that is written with garbage above its 16 bits is read with its sign, another
correction is not in its way, and the trim keeps 16 bits. -/
theorem negative_correction_keeps_its_sign :
    let start : Ticker := ⟨0, 1⟩
    let earlier : List Command :=
      [.write (.correction .tx .phase) 0x7FFFF, .write (.correction .rx .phase) 7,
        .write .trim 0x12345]
    let b := (performAll earlier (boot start)).2
    (performAll (earlier ++ [.read (.correction .tx .phase)]) (boot start)).1[3]? =
      some (some 0xFFFFFFFFFFFFFFFF) ∧
    b.trim.map UInt16.toNat = some 0x2345 ∧
    ((Setting.correction .tx .phase).fetch (Setting.store (.timestamp .tx) 9 b).2).1 =
      ((Setting.correction .tx .phase).fetch b).1 ∧
    (Setting.store .control ((Setting.fetch .control) b).1 (Setting.fetch .control b).2).2 = b := by
  intro start earlier b
  obtain ⟨hread, hkeep, hboard⟩ := settings_are_independent start
  obtain ⟨hother, -, hcell⟩ := hboard b
  obtain ⟨htrim, -⟩ := hkeep earlier
  exact ⟨hread earlier [] (.correction .tx .phase) 0xFFFFFFFFFFFFFFFF (by decide), htrim,
    hother _ _ 9 (by decide) nofun, (hcell .control rfl).2⟩

end MemoryBoard

end RadioControl
