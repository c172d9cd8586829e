import Mathlib
import RadioControl.Frame.Response
import RadioControl.Proofs.Frame.Request

/-!
# Responses as bytes

Tuples are put into a response one after the other, in any order, some into the same slot and some
into slots that do not exist. A slot shares no byte with the head or with another slot, and so it
holds the last tuple that was put into it, whatever went into the others.

* `toFrame_setTuple`, `toFrame_setAll`: to set a tuple is to write its two bytes, at the place where
  a request has them.
* `tuple?_setAll_of_ne`, `tuple?_setAll_of_last`: what a slot holds after a run.
* `setTuple_comm`, `setAll_perm`: tuples for different slots can come in any order.
* `fill_eq_setAll`: to fill in replies is to set the first slots in turn.
* `toList_toFrame`, `bytes_fill_zero`: a response as the list of its bytes, and those of a blank
  one with replies.

`slots_hold_the_last_tuple_set` puts them together.
-/

namespace RadioControl

/-- A tuple and the number of the slot that it goes to. -/
abbrev Placement := Tuple × Nat

/-! ## Bytes -/

/-- The frame with tuples written into their slots, one after the other. -/
def Frame.storeAll (f : Frame) (ps : List Placement) : Frame :=
  ps.foldl (fun f p => f.store p.2 p.1) f

/-- The walk that packs a request numbers its tuples and stores them. -/
theorem Frame.storeAll_zipIdx (f : Frame) (ts : List Tuple) (i : Nat) :
    f.storeAll (ts.zipIdx i) = f.storeFrom i ts := by
  induction ts generalizing f i with
  | nil => rfl
  | cons t ts ih =>
    rw [List.zipIdx_cons, storeFrom, ← ih]
    rfl

/-- The bytes of a frame that has these tuples in its first slots and is zero elsewhere. -/
def Frame.blankWith (ts : List Tuple) : List UInt8 :=
  0 :: 0 :: (ts.takeD 7 ⟨0, 0⟩).flatMap Tuple.bytes

namespace Response

/-- The response with tuples put into their slots, one after the other. -/
def setAll (r : Response) (ps : List Placement) : Response :=
  ps.foldl (fun r p => r.setTuple p.2 p.1) r

theorem setAll_cons (r : Response) (p : Placement) (ps : List Placement) :
    r.setAll (p :: ps) = (r.setTuple p.2 p.1).setAll ps := rfl

theorem setAll_append (r : Response) (ps qs : List Placement) :
    r.setAll (ps ++ qs) = (r.setAll ps).setAll qs := List.foldl_append

theorem first_toFrame (r : Response) : r.toFrame.first = r.head.1 := Payload.first_toFrame _ _

theorem second_toFrame (r : Response) : r.toFrame.second = r.head.2 := Payload.second_toFrame _ _

theorem payload_toFrame (r : Response) : Payload.ofFrame r.toFrame = r.payload :=
  Payload.ofFrame_toFrame _ _

/-- A frame keeps all of a response. -/
theorem toFrame_injective : Function.Injective toFrame :=
  Function.LeftInverse.injective ofFrame_toFrame

/-- To set a tuple is to write the two bytes of its slot. -/
theorem toFrame_setTuple (r : Response) (i : Nat) (t : Tuple) :
    (r.setTuple i t).toFrame = r.toFrame.store i t := by
  apply Frame.ext_payload
  · rw [Frame.first_store, first_toFrame, first_toFrame, head_setTuple]
  · rw [Frame.second_store, second_toFrame, second_toFrame, head_setTuple]
  · rw [Payload.ofFrame_store, payload_toFrame, payload_toFrame, setTuple]

theorem toFrame_setAll (r : Response) (ps : List Placement) :
    (r.setAll ps).toFrame = r.toFrame.storeAll ps :=
  (List.foldl_hom toFrame fun r p => (r.toFrame_setTuple p.2 p.1).symm).symm

/-- The replies go into the response as the tuples of a request go into its frame. -/
theorem toFrame_fill (r : Response) (ts : List Tuple) :
    (r.fill ts).toFrame = r.toFrame.storeFrom 0 ts := by
  apply Frame.ext_payload
  · rw [Frame.first_storeFrom, first_toFrame, first_toFrame, head_fill]
  · rw [Frame.second_storeFrom, second_toFrame, second_toFrame, head_fill]
  · apply Vector.ext
    intro i h
    rw [Payload.getElem_ofFrame_storeFrom _ _ _ _ h, if_neg (Nat.not_lt_zero i), Nat.sub_zero]
    simp only [payload_toFrame, fill, Payload.getElem_overlay]

/-- To fill in replies is to set the first slots, one after the other. -/
theorem fill_eq_setAll (r : Response) (ts : List Tuple) : r.fill ts = r.setAll ts.zipIdx := by
  apply toFrame_injective
  rw [toFrame_fill, toFrame_setAll, Frame.storeAll_zipIdx]

/-- A single reply goes into the first slot. -/
theorem fill_singleton (r : Response) (t : Tuple) : r.fill [t] = r.setTuple 0 t :=
  r.fill_eq_setAll [t]

/-- The bytes of a response, one after another. -/
def bytes (r : Response) : List UInt8 :=
  r.head.1 :: r.head.2 :: r.payload.toList.flatMap Tuple.bytes

theorem toList_toFrame (r : Response) : r.toFrame.toList = r.bytes := Payload.toList_toFrame _ _

theorem map_toList_toFrame (rs : List Response) :
    (rs.map toFrame).map Vector.toList = rs.map bytes := by
  rw [List.map_map]
  exact List.map_congr_left fun r _ => r.toList_toFrame

/-- The bytes of a blank frame with replies in it. -/
theorem bytes_fill_zero (ts : List Tuple) : (zero.fill ts).bytes = Frame.blankWith ts := by
  have hpayload : (zero.fill ts).payload.toList = ts.takeD 7 ⟨0, 0⟩ :=
    Payload.toList_overlay_zero ts
  rw [bytes, hpayload]
  rfl

/-- Responses are read as requests are: a tuple from the two bytes of its slot. -/
theorem tuple?_ofFrame (f : Frame) (i : Nat) (t : Tuple) :
    (ofFrame f).tuple? i = some t ↔
      f[Frame.tupleOffset i]? = some t.address ∧ f[Frame.tupleOffset i + 1]? = some t.data :=
  Request.tuple?_ofFrame f i t

/-! ## Slots -/

variable {ps qs : List Placement} {i j : Nat}

/-- A tuple for a slot that does not exist is lost. -/
theorem setTuple_of_le (h : 7 ≤ i) (r : Response) (t : Tuple) : r.setTuple i t = r := by
  rw [setTuple, Vector.setIfInBounds_eq_of_size_le h]

theorem setAll_filter (r : Response) (ps : List Placement) :
    r.setAll (ps.filter fun p => p.2 < 7) = r.setAll ps := by
  induction ps generalizing r with
  | nil => rfl
  | cons p ps ih =>
    by_cases h : p.2 < 7
    · rw [List.filter_cons_of_pos (by simpa using h), setAll_cons, setAll_cons, ih]
    · rw [List.filter_cons_of_neg (by simpa using h), setAll_cons,
        setTuple_of_le (Nat.not_lt.mp h), ih]

theorem head_setAll (r : Response) (ps : List Placement) : (r.setAll ps).head = r.head := by
  induction ps generalizing r with
  | nil => rfl
  | cons p ps ih => rw [setAll_cons, ih, head_setTuple]

/-- A slot that no tuple goes to keeps what it held. -/
theorem tuple?_setAll_of_ne (h : ∀ p ∈ ps, p.2 ≠ i) (r : Response) :
    (r.setAll ps).tuple? i = r.tuple? i := by
  induction ps generalizing r with
  | nil => rfl
  | cons p ps ih =>
    obtain ⟨hp, hps⟩ := List.forall_mem_cons.mp h
    rw [setAll_cons, ih hps, tuple?_setTuple, if_neg fun hi => hp hi.1]

/-- A slot holds the last tuple that goes to it. -/
theorem tuple?_setAll_of_last (earlier : List Placement) (t : Tuple) (hi : i < 7)
    (h : ∀ p ∈ ps, p.2 ≠ i) (r : Response) :
    (r.setAll (earlier ++ (t, i) :: ps)).tuple? i = some t := by
  rw [setAll_append, setAll_cons, tuple?_setAll_of_ne h, tuple?_setTuple, if_pos ⟨rfl, hi⟩]

/-- The head and the tuples are the whole response. -/
theorem ext_tuple? {r s : Response} (hhead : r.head = s.head)
    (h : ∀ i, r.tuple? i = s.tuple? i) : r = s := by
  obtain ⟨head, payload⟩ := r
  obtain ⟨head', payload'⟩ := s
  have hpayload : payload = payload' := by
    apply Vector.ext
    intro i hi
    simpa [tuple?, hi] using h i
  rw [hpayload, show head = head' from hhead]

theorem setTuple_comm (h : i ≠ j) (r : Response) (t u : Tuple) :
    (r.setTuple i t).setTuple j u = (r.setTuple j u).setTuple i t := by
  refine ext_tuple? rfl fun k => ?_
  simp only [tuple?_setTuple]
  by_cases hj : j = k ∧ k < 7
  · have hi : ¬(i = k ∧ k < 7) := fun hi => h (hi.1.trans hj.1.symm)
    rw [if_pos hj, if_neg hi, if_pos hj]
  · rw [if_neg hj, if_neg hj]

/-- The order does not matter to tuples for different slots. -/
theorem setAll_perm (h : ps.Perm qs) (hslots : (ps.map Prod.snd).Nodup) (r : Response) :
    r.setAll ps = r.setAll qs := by
  refine h.foldl_eq' (fun p hp q hq r => ?_) r
  by_cases hpq : p.2 = q.2
  · rw [List.inj_on_of_nodup_map hslots hp hq hpq]
  · exact setTuple_comm hpq r p.1 q.1

/-- **A slot holds the last tuple that was set in it.** After any run of tuples put into slots, on
any bytes, each slot reads as the last tuple that went to it, and as before if none did. There is
nothing to read past the seventh slot, a tuple put there is lost, and the head stays. The bytes are
those that requests have their tuples in, and tuples for different slots can come in any order. -/
theorem slots_hold_the_last_tuple_set :
    -- A run, read back from the bytes that it leaves.
    (∀ (f : Frame) (ps : List Placement),
      let g := ((ofFrame f).setAll ps).toFrame
      g = f.storeAll ps ∧
      g.first = f.first ∧
      g.second = f.second ∧
      (∀ earlier t i later, ps = earlier ++ (t, i) :: later → (∀ p ∈ later, p.2 ≠ i) → i < 7 →
        (ofFrame g).tuple? i = some t) ∧
      (∀ i, (∀ p ∈ ps, p.2 ≠ i) → (ofFrame g).tuple? i = (ofFrame f).tuple? i) ∧
      (∀ i, 7 ≤ i → (ofFrame g).tuple? i = none) ∧
      (ofFrame f).setAll (ps.filter fun p => p.2 < 7) = (ofFrame f).setAll ps) ∧
    -- The layout is the one of requests.
    (∀ (f : Frame) (i : Nat),
      (ofFrame f).tuple? i = (Request.ofFrame f).tuple? i ∧
      ∀ t, (ofFrame f).tuple? i = some t ↔
        f[Frame.tupleOffset i]? = some t.address ∧
        f[Frame.tupleOffset i + 1]? = some t.data) ∧
    -- One tuple, two tuples, and any number of them in another order.
    (∀ (r : Response) (i : Nat) (t : Tuple), 7 ≤ i → r.setTuple i t = r) ∧
    (∀ (r : Response) (i j : Nat) (t u : Tuple), i ≠ j →
      (r.setTuple i t).setTuple j u = (r.setTuple j u).setTuple i t) ∧
    (∀ (r : Response) (ps qs : List Placement), ps.Perm qs → (ps.map Prod.snd).Nodup →
      r.setAll ps = r.setAll qs) := by
  refine ⟨fun f ps => ?_, fun f i => ⟨rfl, tuple?_ofFrame f i⟩, fun r i t h => setTuple_of_le h r t,
    fun r i j t u h => setTuple_comm h r t u, fun r ps qs h hslots => setAll_perm h hslots r⟩
  intro g
  have hwalk : g = (ofFrame f).toFrame.storeAll ps := toFrame_setAll _ _
  have hread : ofFrame g = (ofFrame f).setAll ps := ofFrame_toFrame _
  rw [toFrame_ofFrame] at hwalk
  refine ⟨hwalk, ?_, ?_, ?_, ?_, fun i h => Vector.getElem?_eq_none h, setAll_filter _ _⟩
  · rw [first_toFrame, head_setAll, ofFrame]
  · rw [second_toFrame, head_setAll, ofFrame]
  · rintro earlier t i later rfl hlater hi
    rw [hread, tuple?_setAll_of_last earlier t hi hlater]
  · intro i h
    rw [hread, tuple?_setAll_of_ne h]

/-- Of the two tuples for slot 3 the second is read back, those for slots 7 and 2 ^ 32 are lost, and
between the last tuples for slots 6 and 3 the order does not matter. -/
theorem later_tuple_replaces_earlier :
    let f : Frame := Vector.replicate 16 0x77
    let ps : List Placement :=
      [(⟨1, 0x10⟩, 3), (⟨2, 0x20⟩, 7), (⟨0x12, 0x34⟩, 6), (⟨3, 0x30⟩, 2 ^ 32), (⟨4, 0x40⟩, 3)]
    let g := ((ofFrame f).setAll ps).toFrame
    g.first = 0x77 ∧
      (ofFrame g).tuple? 3 = some ⟨4, 0x40⟩ ∧
      (ofFrame g).tuple? 0 = some ⟨0x77, 0x77⟩ ∧
      (ofFrame g).tuple? 7 = none ∧
      (ofFrame f).setAll ps =
        (ofFrame f).setAll [(⟨1, 0x10⟩, 3), (⟨0x12, 0x34⟩, 6), (⟨4, 0x40⟩, 3)] ∧
      (ofFrame f).setAll [(⟨0x12, 0x34⟩, 6), (⟨4, 0x40⟩, 3)] =
        (ofFrame f).setAll [(⟨4, 0x40⟩, 3), (⟨0x12, 0x34⟩, 6)] := by
  intro f ps g
  obtain ⟨hrun, -, -, -, horder⟩ := slots_hold_the_last_tuple_set
  obtain ⟨-, hfirst, -, hlast, hkept, hpast, hlost⟩ := hrun f ps
  have hold : (ofFrame f).tuple? 0 = some ⟨0x77, 0x77⟩ := rfl
  exact ⟨hfirst, hlast (ps.take 4) ⟨4, 0x40⟩ 3 [] rfl (by simp) (by decide),
    (hkept 0 (by decide)).trans hold, hpast 7 (by decide), hlost.symm,
    horder (ofFrame f) _ _ (.swap _ _ []) (by decide)⟩

end Response

end RadioControl
