import Mathlib
import RadioControl.Proofs.Board.RegisterMap
import RadioControl.Proofs.Station.Loop
import RadioControl.Proofs.Transfer.Ordered
import RadioControl.Register.File

/-!
# The station as a register map

The host sends each command as requests that move the bytes of a setting in their order
(`Exchange`), with other requests in between as it likes, and the line cuts all their bytes into
chunks as it likes. `station_refines_register_map`: the bytes that come back are what the history of
the commands says (`exchangeFrames`).

The proof goes down the layers: `listen_chunks` and `delivery` from bytes to requests,
`answerAll_separates` from requests to inputs of the engine, `feedAll_exchange` from these to
accesses to the board, which `Remembers` its history.
-/

namespace RadioControl

namespace Command

def direction : Command → Direction
  | .write _ _ => .write
  | .read _ => .read

/-- The bytes that come back after a history. -/
def answer {τ : Type} [TickSource τ] (start : τ) (history : List Command) : Command → Nat → UInt8
  | .write _ _ => fun _ => 0
  | .read s => LittleEndian.digit (reading start history s).toNat

end Command

/-- A command, and how the host sends it. -/
structure Exchange where
  command : Command
  mapped : command.setting ≠ .unmapped
  /-- The bytes of the setting, cut into frames. -/
  cut : List (List Nat)
  whole : cut.flatten = List.range command.setting.width.toNat
  fits : ∀ ks ∈ cut, ks.length ≤ Frame.slots
  /-- What a read has in the place of data. -/
  filler : Nat → UInt8

namespace Exchange

/-- The data of the tuples: the bytes of the value, or anything. -/
def data (e : Exchange) : Nat → UInt8 :=
  match e.command with
  | .write _ v => LittleEndian.digit v.toNat
  | .read _ => e.filler

def requests (e : Exchange) : List Request :=
  e.cut.map fun ks =>
    .pack (.pack e.command.direction .config (UInt8.ofNat ks.length))
      (ks.map (e.command.setting.tuple e.data))

/-- The bytes that come back after a history: for each request those of a frame that is blank but
for the replies to its tuples. -/
def frames {τ : Type} [TickSource τ] (start : τ) (history : List Command) (e : Exchange) :
    List (List UInt8) :=
  (Transfer.answers (e.command.answer start history) e.cut).map Frame.blankWith

end Exchange

/-- The bytes that come back after a history, of exchanges one after another. -/
def exchangeFrames {τ : Type} [TickSource τ] (start : τ) :
    List Command → List Exchange → List (List UInt8)
  | _, [] => []
  | history, e :: es => e.frames start history ++ exchangeFrames start (e.command :: history) es

/-! ## Requests as inputs -/

theorem Payload.take_overlay (p : Payload) {ts : List Tuple} (h : ts.length ≤ Frame.slots) :
    (p.overlay ts).toList.take ts.length = ts := by
  have h7 : ts.length ≤ 7 := h
  apply List.ext_getElem
  · simpa using h7
  · intro i hi hi'
    rw [List.getElem_take, Vector.getElem_toList, getElem_overlay p ts i (by omega),
      List.getElem?_eq_getElem hi']
    rfl

theorem Request.input?_pack {β : Type} (direction : Direction) {ts : List Tuple}
    (h : ts.length ≤ Frame.slots) :
    ((Request.pack (.pack direction .config (UInt8.ofNat ts.length)) ts).input? :
      Option (Transfer.Input β)) = some (.frame direction ts) := by
  have h7 : ts.length ≤ 7 := h
  have hn : (UInt8.ofNat ts.length).toNat % 8 = ts.length := by
    rw [UInt8.toNat_ofNat']
    omega
  unfold Request.input? Request.tuples Request.pack
  rw [if_pos (ControlByte.device_pack ..), ControlByte.direction?_pack, Option.map_some,
    ControlByte.count_pack, hn, Payload.take_overlay _ h]

theorem Exchange.filterMap_input? {β : Type} (e : Exchange) :
    e.requests.filterMap Request.input? =
      (Transfer.frames e.command.setting e.command.direction e.data e.cut :
        List (Transfer.Input β)) := by
  unfold Exchange.requests Transfer.frames
  rw [List.filterMap_map]
  refine Eq.trans (List.filterMap_congr fun ks hks => ?_) (congrFun List.filterMap_eq_map e.cut)
  have hlen : (ks.map (e.command.setting.tuple e.data)).length = ks.length := List.length_map _
  have hin := Request.input?_pack (β := β) e.command.direction (hlen.trans_le (e.fits ks hks))
  rw [hlen] at hin
  exact hin

/-- Only the moves are inputs. -/
theorem Request.filterMap_filter_isMove {β : Type} (qs : List Request) :
    ((qs.filter Request.isMove).filterMap Request.input? : List (Transfer.Input β)) =
      qs.filterMap Request.input? := by
  rw [List.filterMap_filter]
  refine List.filterMap_congr fun q _ => ?_
  rw [← Request.isSome_input? (β := β)]
  cases (q.input? : Option (Transfer.Input β)) <;> rfl

/-! ## Exchanges -/

theorem Transfer.answers_congr {f g : Nat → UInt8} {cut : List (List Nat)}
    (h : ∀ k ∈ cut.flatten, f k = g k) : answers f cut = answers g cut := by
  unfold answers
  refine List.map_congr_left fun ks hks => List.map_congr_left fun k hk => ?_
  unfold Tuple.numbered
  rw [h k (List.mem_flatten.mpr ⟨ks, hks, hk⟩)]

section Run

variable {τ : Type} [TickSource τ] {start : τ} {history : List Command} {b : MemoryBoard τ}

/-- One exchange: the history says what comes back, and the command becomes part of it. -/
theorem feedAll_exchange (policy : Policy) (h : Remembers start history b) (e : Exchange) :
    ∃ b', (Transfer.fresh policy).feedAll
        (Transfer.frames e.command.setting e.command.direction e.data e.cut) b =
          ((Transfer.answers (e.command.answer start history) e.cut, Transfer.fresh policy), b') ∧
      Remembers start (e.command :: history) b' := by
  rcases e with ⟨⟨s, v⟩ | ⟨s⟩, hs, cut, hcut, _, filler⟩
  · have hs : s ≠ .unmapped := hs
    have hcut : cut.flatten = List.range s.width.toNat := hcut
    have hd := (Transfer.Begins.fresh policy).does_write hs (LittleEndian.digit v.toNat) hcut b
    refine ⟨_, hd.run, h.store ?_⟩
    rw [toNat_gathered _ s.width_le_eight, LittleEndian.number_map_digit]
  · have hs : s ≠ .unmapped := hs
    have hcut : cut.flatten = List.range s.width.toNat := hcut
    have hd := (Transfer.Begins.fresh policy).does_read hs filler hcut b
    have ha : Transfer.answers (LittleEndian.digit (s.fetch b).1.toNat) cut =
        Transfer.answers (LittleEndian.digit (reading start history s).toNat) cut := by
      refine Transfer.answers_congr fun k hk => h.digit_fetch s ?_
      rw [hcut] at hk
      exact List.mem_range.mp hk
    have hrun := hd.run
    rw [ha] at hrun
    exact ⟨_, hrun, h.fetch s⟩

theorem feedAll_exchanges (policy : Policy) (h : Remembers start history b)
    (es : List Exchange) :
    let f := (Transfer.fresh policy).feedAll
      ((es.flatMap Exchange.requests).filterMap Request.input?) b
    f.1.1.map Frame.blankWith = exchangeFrames start history es ∧
      f.1.2 = Transfer.fresh policy ∧
      Remembers start ((es.map Exchange.command).reverse ++ history) f.2 := by
  induction es generalizing history b with
  | nil => exact ⟨rfl, rfl, h⟩
  | cons e es ih =>
    obtain ⟨b', hf, h'⟩ := feedAll_exchange policy h e
    obtain ⟨hr, hidle, hb⟩ := ih h'
    rw [List.flatMap_cons, List.filterMap_append, Transfer.feedAll_append, e.filterMap_input?]
    simp only [bind_apply, hf, pure_apply, List.map_append, List.map_cons, List.reverse_cons,
      List.append_assoc]
    exact ⟨congrArg _ hr, hidle, hb⟩

end Run

/-- **The station is a register map.** The host sends commands to a fresh station, each as requests
that move the bytes of one setting, with any other requests that move nothing in between. In
whatever chunks the bytes of all these requests come in, one frame goes out for each request, in
order, with the bytes of the response to it; the frames for the moves are what the history of the
commands says; and in the end nothing is under way and the board remembers all the commands. -/
theorem station_refines_register_map {τ κ θ : Type} [RegisterBank τ] [RegisterBank κ]
    [TickSource θ] (policy : Policy) (transceiver : τ) (clock : κ) (ticks : θ)
    (exchanges : List Exchange) {stream : List Request}
    (hs : stream.filter Request.isMove = exchanges.flatMap Exchange.requests)
    {chunks : List (List UInt8)} (hc : chunks.flatten = stream.flatMap Request.bytes) :
    let radio : Radio τ κ (MemoryBoard θ) :=
      { transfer := .fresh policy, transceiver, clock, board := .boot ticks }
    let out := Station.listen (chunks.map .chunk) { radio }
    let frames := out.1.flatten.map Vector.toList
    frames = (Radio.answerAll stream radio).1.map Response.bytes ∧
      frames.length = stream.length ∧
      Radio.toMoves stream frames = exchangeFrames ticks [] exchanges ∧
      out.2.pending = 0 ∧ out.2.radio.transfer = .fresh policy ∧
      Remembers ticks (exchanges.map Exchange.command).reverse out.2.radio.board := by
  intro radio out frames
  have hlisten := Station.listen_chunks chunks { radio }
  rw [Station.hear_chunk, hc, Station.delivery rfl] at hlisten
  obtain ⟨hsent, hout⟩ := Prod.ext_iff.mp hlisten
  have hout : out.2 = { framer := .empty, radio := (Radio.answerAll stream radio).2 } := hout
  have hframes : frames = (Radio.answerAll stream radio).1.map Response.bytes :=
    (congrArg _ hsent).trans (Response.map_toList_toFrame _)
  obtain ⟨hlen, hmoves, htransfer, hboard⟩ := Radio.answerAll_separates stream radio
  obtain ⟨hexchanges, hidle, hb⟩ := feedAll_exchanges policy (Remembers.boot ticks) exchanges
  rw [← hs, Request.filterMap_filter_isMove] at hexchanges hidle hb
  have hblank : Response.bytes ∘ Response.zero.fill = Frame.blankWith :=
    funext Response.bytes_fill_zero
  refine ⟨hframes, ?_, ?_, ?_, ?_, ?_⟩
  · rw [hframes, List.length_map, hlen]
  · rw [hframes, Radio.toMoves_map, hmoves, List.map_map, hblank]
    exact hexchanges
  · rw [hout]
    rfl
  · rw [hout]
    exact htransfer.trans hidle
  · rw [List.append_nil] at hb
    rw [hout]
    exact hboard ▸ hb

/-- A word is written to the expansion, with a request for the transceiver halfway, and read back;
the first chunk ends within the second request. -/
theorem expansion_read_back :
    let written : Exchange :=
      ⟨.write .expansion 0x04030201, by decide, [[0, 1], [2, 3]], by decide, by decide, fun _ => 0⟩
    let shown : Exchange :=
      ⟨.read .expansion, by decide, [[0, 1, 2, 3]], by decide, by decide, fun _ => 0xAA⟩
    let other : Request := .pack (.pack .write .transceiver 1) [⟨0x10, 0x99⟩]
    let stream := written.requests.take 1 ++ other :: written.requests.drop 1 ++ shown.requests
    let chunks : List (List UInt8) :=
      [[0x42, 0, 40, 1, 41, 2, 0, 0, 0, 0, 0, 0, 0, 0, 0, 0, 0x51, 0, 0x10, 0x99, 0],
        [0, 0, 0, 0, 0, 0, 0, 0, 0, 0, 0, 0x42, 0, 42, 3, 43, 4, 0, 0, 0, 0, 0, 0, 0, 0, 0, 0,
          0x84, 0, 40, 0xAA, 41, 0xAA, 42, 0xAA, 43, 0xAA, 0, 0, 0, 0, 0, 0]]
    let radio : Radio (RegisterFile 256) (RegisterFile 256) (MemoryBoard Ticker) :=
      { transfer := .fresh .trust, transceiver := .zero, clock := .zero, board := .boot ⟨0, 1⟩ }
    let out := Station.listen (chunks.map .chunk) { radio }
    chunks.flatten = stream.flatMap Request.bytes ∧
      Radio.toMoves stream (out.1.flatten.map Vector.toList) =
        [[0, 0, 0, 0, 1, 0, 0, 0, 0, 0, 0, 0, 0, 0, 0, 0],
          [0, 0, 2, 0, 3, 0, 0, 0, 0, 0, 0, 0, 0, 0, 0, 0],
          [0, 0, 0, 1, 1, 2, 2, 3, 3, 4, 0, 0, 0, 0, 0, 0]] := by
  intro written shown other stream chunks radio out
  have hs : stream.filter Request.isMove = [written, shown].flatMap Exchange.requests := by decide
  have hc : chunks.flatten = stream.flatMap Request.bytes := by decide
  obtain ⟨-, -, hmoves, -⟩ := station_refines_register_map .trust (.zero : RegisterFile 256)
    (.zero : RegisterFile 256) (⟨0, 1⟩ : Ticker) [written, shown] hs hc
  exact ⟨hc, hmoves.trans (by decide)⟩

end RadioControl
