import Mathlib
import RadioControl.Proofs.Board.Cells
import RadioControl.Proofs.Radio.Relevance
import RadioControl.Proofs.Register.Memory

/-!
# What a request can change

`Radio.Cell` names all that a radio with its two chips and a board in memory holds, and `changed` is
what differs between two states of it.

* `cell_answer`: a request changes at most one cell.
* `cell_answer_harmless`: it changes none if it is `Request.Harmless`, and `sends_answer_harmless`:
  nor does it send the transceiver a word that would.
* `harmless_run`: so a run of harmless requests changes nothing at all.

`blast_radius` puts them together.
-/

namespace RadioControl

namespace Request

/-- The request has the read bit, or no direction, or no device, or it is for the board and counts
no tuple. -/
def Harmless (q : Request) : Prop :=
  q.control.readBit = true ∨ q.control.direction? = none ∨ q.control.device = .reserved ∨
    q.control.device = .config ∧ q.control.count = 0

section Access

variable {ρ : Type} [RegisterBank ρ] {q : Request}

/-- An access changes at most one register if a read changes none and a write at most one. -/
theorem access_changes_one {n : Nat} [NeZero n] (registers : ρ → RegisterFile n)
    (hread : ∀ a s, registers (RegisterBank.read a s).2 = registers s)
    (hwrite : ∀ a v s, ∃ i₀, ∀ i ≠ i₀,
      (registers (RegisterBank.write a v s).2).get i = (registers s).get i)
    (q : Request) (s : ρ) :
    ∃ i₀, ∀ i ≠ i₀, (registers (q.access s).2).get i = (registers s).get i := by
  cases hd : q.control.direction? with
  | none => exact ⟨0, fun i _ => by rw [access_of_undirected hd]⟩
  | some d =>
    cases d with
    | read => exact ⟨0, fun i _ => by simp only [access_of_read hd, hread]⟩
    | write =>
      rw [access_of_write hd]
      exact hwrite _ _ s

end Access

end Request

/-- The event reaches the chip as a write. -/
def Spi.Event.isWrite : Spi.Event → Bool
  | .exchange first _ => first &&& 0x80 ≠ 0
  | _ => false

/-- A read reaches the chip as a read, whatever its address. -/
theorem Transceiver.sends_read {σ : Type} [Spi.Bus σ] (address : UInt8)
    (t : Transceiver (Traced σ Spi.Event)) :
    ∃ es, (RegisterBank.read address t).2.bus.trace = t.bus.trace ++ es ∧
      ∀ e ∈ es, ¬e.isWrite := by
  obtain ⟨es, htrace, hwords⟩ := words_exchange (readWord address) 0 t.bus
  refine ⟨es, by rw [bus_read, htrace], fun e he => ?_⟩
  cases e with
  | exchange first second =>
    rw [(hwords first second he).1]
    simp [Spi.Event.isWrite, readWord_and]
  | _ => exact Bool.false_ne_true

namespace Radio

/-! ## Cells -/

/-- What a radio holds. -/
inductive Cell where
  | transceiver (register : Fin 128)
  | clock (register : Fin 256)
  | board (cell : MemoryBoard.Cell)
  deriving DecidableEq

/-- What is in a cell. -/
abbrev Cell.Value : Cell → Type
  | .transceiver _ | .clock _ => UInt8
  | .board c => c.Value

section Cells

variable {σ ι θ : Type} [Spi.Bus σ] [Spi.Memory σ] [I2c.Bus ι] [I2c.Memory ι]
  {r r' : Radio (Transceiver σ) (ClockSynth ι) (MemoryBoard θ)}

/-- The value in a cell. -/
def cell (r : Radio (Transceiver σ) (ClockSynth ι) (MemoryBoard θ)) : (c : Cell) → c.Value
  | .transceiver i => (Spi.Memory.registers r.transceiver.bus).get i
  | .clock i => (I2c.Memory.registers r.clock.bus).get i
  | .board c => r.board.cell c

/-- The cells in which two states differ. -/
def changed (r r' : Radio (Transceiver σ) (ClockSynth ι) (MemoryBoard θ)) : Set Cell :=
  {c | r'.cell c ≠ r.cell c}

theorem changed_eq_empty (h : r'.cell = r.cell) : changed r r' = ∅ :=
  Set.eq_empty_of_forall_notMem fun c hc => hc (congrFun h c)

theorem changed_subsingleton (h : ∃ c₀, ∀ c ≠ c₀, r'.cell c = r.cell c) :
    (changed r r').Subsingleton := by
  obtain ⟨c₀, h⟩ := h
  have hc₀ : ∀ c ∈ changed r r', c = c₀ := fun c hc => not_imp_comm.mp (h c) hc
  exact fun c hc c' hc' => (hc₀ c hc).trans (hc₀ c' hc').symm

end Cells

/-! ## One request -/

section Requests

variable {σ ι θ : Type} [Spi.Bus σ] [Spi.Memory σ] [I2c.Bus ι] [I2c.Memory ι] [TickSource θ]
  {q : Request}

theorem cell_access_transceiver (q : Request) (t : Transceiver σ) : ∃ i₀, ∀ i ≠ i₀,
    (Spi.Memory.registers (q.access t).2.bus).get i = (Spi.Memory.registers t.bus).get i :=
  q.access_changes_one (fun t : Transceiver σ => Spi.Memory.registers t.bus)
    Transceiver.registers_read
    (fun _ _ t => ⟨_, fun _ hi => Transceiver.registers_write _ _ t hi⟩) t

theorem cell_access_clock (q : Request) (c : ClockSynth ι) : ∃ i₀, ∀ i ≠ i₀,
    (I2c.Memory.registers (q.access c).2.bus).get i = (I2c.Memory.registers c.bus).get i :=
  q.access_changes_one (fun c : ClockSynth ι => I2c.Memory.registers c.bus)
    ClockSynth.registers_read
    (fun _ _ c => ⟨_, fun _ hi => ClockSynth.registers_write _ _ c hi⟩) c

/-- **One cell for each request.** -/
theorem cell_answer (q : Request) (preset : Response)
    (r : Radio (Transceiver σ) (ClockSynth ι) (MemoryBoard θ)) :
    ∃ c₀, ∀ c ≠ c₀, (answer q preset r).2.cell c = r.cell c := by
  cases hdev : q.control.device with
  | config =>
    cases hdir : q.control.direction? with
    | none => exact ⟨.board .control, fun c _ => by rw [answer_of_undirected hdir]⟩
    | some d =>
      obtain ⟨c₀, h⟩ :=
        MemoryBoard.cell_run r.transfer d (q.tuples q.control.count) r.board
      refine ⟨.board c₀, fun c hc => ?_⟩
      rw [answer_of_move hdev hdir]
      cases c with
      | board c => exact h c fun hcc => hc (hcc ▸ rfl)
      | _ => rfl
  | transceiver =>
    obtain ⟨i₀, h⟩ := cell_access_transceiver q r.transceiver
    refine ⟨.transceiver i₀, fun c hc => ?_⟩
    rw [answer_of_transceiver hdev]
    cases c with
    | transceiver i => exact h i fun hi => hc (hi ▸ rfl)
    | _ => rfl
  | clockSynth =>
    obtain ⟨i₀, h⟩ := cell_access_clock q r.clock
    refine ⟨.clock i₀, fun c hc => ?_⟩
    rw [answer_of_clock hdev]
    cases c with
    | clock i => exact h i fun hi => hc (hi ▸ rfl)
    | _ => rfl
  | reserved => exact ⟨.board .control, fun c _ => by rw [answer_of_reserved hdev]⟩

/-- A read changes no cell. -/
theorem cell_answer_read (h : q.control.direction? = some .read) (preset : Response)
    (r : Radio (Transceiver σ) (ClockSynth ι) (MemoryBoard θ)) :
    (answer q preset r).2.cell = r.cell := by
  funext c
  cases hdev : q.control.device with
  | config =>
    rw [answer_of_move hdev h]
    cases c with
    | board c => exact congrFun (MemoryBoard.cell_run_read _ _ r.board) c
    | _ => rfl
  | transceiver =>
    rw [answer_of_transceiver hdev]
    cases c with
    | transceiver i =>
      show (Spi.Memory.registers (q.access r.transceiver).2.bus).get i = _
      rw [Request.access_of_read h, Transceiver.registers_read]
      rfl
    | _ => rfl
  | clockSynth =>
    rw [answer_of_clock hdev]
    cases c with
    | clock i =>
      show (I2c.Memory.registers (q.access r.clock).2.bus).get i = _
      rw [Request.access_of_read h, ClockSynth.registers_read]
      rfl
    | _ => rfl
  | reserved => rw [answer_of_reserved hdev]

/-- A harmless request changes no cell. -/
theorem cell_answer_harmless {policy : Policy} (hq : q.Harmless) (preset : Response)
    {r : Radio (Transceiver σ) (ClockSynth ι) (MemoryBoard θ)}
    (hr : Transfer.Reachable (MemoryBoard θ) policy r.transfer) :
    (answer q preset r).2.cell = r.cell := by
  rcases hq with hread | hnone | hdev | ⟨hdev, hcount⟩
  · exact cell_answer_read ((ControlByte.direction?_eq_read_iff _).mpr hread) preset r
  · rw [answer_of_undirected hnone]
  · rw [answer_of_reserved hdev]
  · cases hdir : q.control.direction? with
    | none => rw [answer_of_undirected hdir]
    | some d =>
      have hwait : ∀ p, r.transfer.activity.writing? = some p → ¬p.Finished :=
        fun p hp => (hr.underway (.inr hp)).not_finished
      rw [answer_of_move hdev hdir, hcount]
      funext c
      cases c with
      | board c => exact congrFun (MemoryBoard.cell_run_nil hwait d r.board) c
      | _ => rfl

end Requests

/-! ## Runs -/

section Runs

/-- The input is a reset or a harmless request. -/
def Input.Harmless : Input → Prop
  | .packet q _ => q.Harmless
  | .reset => True

theorem reachable_feed {τ κ β : Type} [RegisterBank τ] [RegisterBank κ] [Board β]
    {policy : Policy} {r : Radio τ κ β} (h : Transfer.Reachable β policy r.transfer) (i : Input) :
    Transfer.Reachable β policy (feed i r).2.transfer := by
  cases i with
  | packet q preset =>
    rw [feed_packet]
    cases hi : (q.input? : Option (Transfer.Input β)) with
    | none => exact (answer_other hi preset r).1 ▸ h
    | some i =>
      rw [answer_move hi]
      exact h.feed i r.board
  | reset => exact h.feed .reset r.board

variable {σ ι θ : Type} [Spi.Bus σ] [I2c.Bus ι] [TickSource θ]

/-- A harmless request sends the transceiver no write. -/
theorem sends_answer_harmless {q : Request} (hq : q.Harmless) (preset : Response)
    (r : Radio (Transceiver (Traced σ Spi.Event)) (ClockSynth ι) (MemoryBoard θ)) :
    ∃ es, (answer q preset r).2.transceiver.bus.trace = r.transceiver.bus.trace ++ es ∧
      ∀ e ∈ es, ¬e.isWrite := by
  have hnothing : ∃ es, r.transceiver.bus.trace = r.transceiver.bus.trace ++ es ∧
      ∀ e ∈ es, ¬Spi.Event.isWrite e := ⟨[], (List.append_nil _).symm, fun _ he => nomatch he⟩
  cases hdev : q.control.device with
  | transceiver =>
    rw [answer_of_transceiver hdev]
    rcases hq with hread | hnone | hdev' | ⟨hdev', -⟩
    · simp only [Request.access_of_read ((ControlByte.direction?_eq_read_iff _).mpr hread)]
      exact Transceiver.sends_read _ r.transceiver
    · simp only [Request.access_of_undirected hnone]
      exact hnothing
    · exact nomatch hdev.symm.trans hdev'
    · exact nomatch hdev.symm.trans hdev'
  | config =>
    rw [(answer_of_config hdev preset r).1]
    exact hnothing
  | clockSynth =>
    rw [answer_of_clock hdev]
    exact hnothing
  | reserved =>
    rw [answer_of_reserved hdev]
    exact hnothing

variable [Spi.Memory σ] [I2c.Memory ι]

/-- **A run of harmless requests.** -/
theorem harmless_run {policy : Policy} {is : List Input} (his : ∀ i ∈ is, i.Harmless)
    {r : Radio (Transceiver (Traced σ Spi.Event)) (ClockSynth ι) (MemoryBoard θ)}
    (hr : Transfer.Reachable (MemoryBoard θ) policy r.transfer) :
    (feedAll is r).2.cell = r.cell ∧
    ∃ es, (feedAll is r).2.transceiver.bus.trace = r.transceiver.bus.trace ++ es ∧
      ∀ e ∈ es, ¬e.isWrite := by
  induction is generalizing r with
  | nil => exact ⟨rfl, [], (List.append_nil _).symm, fun _ he => nomatch he⟩
  | cons i is ih =>
    obtain ⟨hi, his⟩ := List.forall_mem_cons.mp his
    have hstep : (feed i r).2.cell = r.cell ∧
        ∃ es, (feed i r).2.transceiver.bus.trace = r.transceiver.bus.trace ++ es ∧
          ∀ e ∈ es, ¬e.isWrite := by
      cases i with
      | packet q preset =>
        exact ⟨cell_answer_harmless hi preset hr, sends_answer_harmless hi preset r⟩
      | reset =>
        refine ⟨?_, [], (List.append_nil _).symm, fun _ he => nomatch he⟩
        funext c
        cases c <;> rfl
    obtain ⟨hcell, es, htrace, hes⟩ := hstep
    obtain ⟨hcell', es', htrace', hes'⟩ := ih his (reachable_feed hr i)
    rw [feedAll_cons_apply]
    refine ⟨hcell'.trans hcell, es ++ es', ?_, fun e he => ?_⟩
    · rw [htrace', htrace, List.append_assoc]
    · exact (List.mem_append.mp he).elim (hes e) (hes' e)

/-- **How far a request reaches.** On chips behind buses that may fail anywhere, and with a board in
memory, wherever the transfer engine is,

* a request changes at most one of all the registers and settings, and none if it is harmless;
* a read of the transceiver never reaches the chip as a write, whatever the address;
* a run of harmless requests changes no register and no setting, and sends no write either. -/
theorem blast_radius {policy : Policy}
    {r : Radio (Transceiver (Traced σ Spi.Event)) (ClockSynth ι) (MemoryBoard θ)}
    (hr : Transfer.Reachable (MemoryBoard θ) policy r.transfer) :
    (∀ (q : Request) (preset : Response),
      let r' := (answer q preset r).2
      (changed r r').Subsingleton ∧ (q.Harmless → changed r r' = ∅)) ∧
    (∀ (q : Request) (preset : Response),
      q.control.device = .transceiver → q.control.readBit = true →
      let r' := (answer q preset r).2
      ∃ es, r'.transceiver.bus.trace = r.transceiver.bus.trace ++ es ∧ ∀ e ∈ es, ¬e.isWrite) ∧
    (∀ is : List Input, (∀ i ∈ is, i.Harmless) →
      let r' := (feedAll is r).2
      changed r r' = ∅ ∧
      ∃ es, r'.transceiver.bus.trace = r.transceiver.bus.trace ++ es ∧ ∀ e ∈ es, ¬e.isWrite) := by
  refine ⟨fun q preset => ⟨?_, fun hq => ?_⟩, fun q preset _ hread => ?_, fun is his => ?_⟩
  · exact changed_subsingleton (cell_answer q preset r)
  · exact changed_eq_empty (cell_answer_harmless hq preset hr)
  · exact sends_answer_harmless (.inl hread) preset r
  · exact (harmless_run his hr).imp_left changed_eq_empty

/-- In the middle of a write of the control register, on a transceiver whose last step fails: a
write to it changes one register nevertheless, and then a read, a request for the board without
tuples and a reset change nothing. -/
theorem failing_write_reaches_one_register :
    let chip : Spi.Chip := { failing := { flush := some .overrun } }
    let r : Radio (Transceiver (Traced Spi.Chip Spi.Event)) (ClockSynth I2c.Chip)
        (MemoryBoard Ticker) :=
      { transfer := ⟨.trust, .writing ⟨.control, 2, 0x2211⟩⟩, transceiver := ⟨⟨chip, []⟩⟩,
        clock := .factory { address := 0x70 }, board := .boot ⟨0, 1⟩ }
    let q : Request := .pack (.pack .write .transceiver 1) [⟨0x90, 0x55⟩]
    let shown : Request := .pack (.pack .read .transceiver 1) [⟨0x90, 0x55⟩]
    let empty : Request := .pack (.pack .write .config 0) [⟨2, 0x33⟩]
    Transfer.Reachable (MemoryBoard Ticker) .trust r.transfer ∧
    (Cell.transceiver 0x10 ∈ changed r (answer q .zero r).2 ∧
      (changed r (answer q .zero r).2).Subsingleton) ∧
    changed r (feedAll [.packet shown .zero, .packet empty .zero, .reset] r).2 = ∅ := by
  intro chip r q shown empty
  have hr : Transfer.Reachable (MemoryBoard Ticker) .trust r.transfer :=
    ⟨[.frame .write [⟨0, 0x11⟩, ⟨1, 0x22⟩]], .boot ⟨0, 1⟩, by decide⟩
  have his : ∀ i ∈ [.packet shown .zero, .packet empty .zero, .reset], Input.Harmless i := by
    simp only [List.forall_mem_cons]
    exact ⟨.inl (by decide), .inr (.inr (.inr ⟨by decide, by decide⟩)), trivial, nofun⟩
  have hchanged : (answer q .zero r).2.cell (.transceiver 0x10) = (0x55 : UInt8) ∧
      r.cell (.transceiver 0x10) = (0 : UInt8) := by decide
  obtain ⟨hone, -, hnone⟩ := blast_radius hr
  refine ⟨hr, ⟨?_, (hone q .zero).1⟩, (hnone _ his).1⟩
  show (answer q .zero r).2.cell (.transceiver 0x10) ≠ r.cell (.transceiver 0x10)
  rw [hchanged.1, hchanged.2]
  decide

end Runs

end Radio

end RadioControl
