import Mathlib
import RadioControl.Board.Memory
import RadioControl.Proofs.Transfer.Steps

/-!
# A host that keeps the order

A strict engine differs from a trusting one only where a tuple comes in the middle of a transfer and
does not carry the next address. A journal that has no such tuple is `InOrder`, and the run that it
is of is the same under both policies: tuple by tuple (`keep_strict_eq`), for each of the two loops
(`recordServe_strict`, `recordCollect_strict`), for an input (`record_strict`) and for a run
(`recordAll_strict`).

`policies_agree` says so for what can be seen of a run.
-/

namespace RadioControl

/-- An address that goes on with what is in hand is kept by every policy. -/
theorem Policy.keep_strict_eq {p? : Option Progress} {address : UInt8}
    (h : ∀ p, p? = some p → p.next = address) :
    keep .strict p? address = keep .trust p? address := by
  cases p? with
  | none => rfl
  | some p => rw [keep_strict, if_pos (h p rfl), keep_trust]

namespace Transfer

/-! ## Order in a journal -/

/-- A tuple that is dealt with in the middle of a transfer carries the next address of it. -/
def Event.InTurn (a : Activity) : Event → Prop
  | .moved d _ t => ∀ p, a.inDirection d = some p → p.next = t.address
  | _ => True

/-- All events are in turn, with `a` in hand before the first. -/
def InOrder (a : Activity) : List Event → Prop
  | [] => True
  | e :: es => e.InTurn a ∧ InOrder (e.after a) es

instance decidableInTurn (a : Activity) : (e : Event) → Decidable (e.InTurn a)
  | .moved d _ t => decidable_of_iff (∀ p ∈ a.inDirection d, p.next = t.address) Iff.rfl
  | .arrived _ | .fetched _ _ | .stored _ _ | .handled _ | .reset | .drifted =>
    inferInstanceAs (Decidable True)

instance decidableInOrder : (a : Activity) → (es : List Event) → Decidable (InOrder a es)
  | _, [] => inferInstanceAs (Decidable True)
  | a, e :: es =>
    have := decidableInOrder (e.after a) es
    inferInstanceAs (Decidable (e.InTurn a ∧ InOrder (e.after a) es))

theorem inOrder_append {a : Activity} {es es' : List Event} :
    InOrder a (es ++ es') ↔ InOrder a es ∧ InOrder (inHand a es) es' := by
  induction es generalizing a with
  | nil => exact ⟨fun h => ⟨trivial, h⟩, fun h => h.2⟩
  | cons e es ih => exact (and_congr_right fun _ => ih).trans and_assoc.symm

/-- Order, told by places: each event is in turn with what is in hand at its place. -/
theorem inOrder_iff {a : Activity} {log : List Event} :
    InOrder a log ↔
      ∀ (i : Nat) (e : Event), log[i]? = some e → e.InTurn (inHand a (log.take i)) := by
  induction log generalizing a with
  | nil => exact ⟨fun _ _ _ he => (nomatch he), fun _ => trivial⟩
  | cons e' es ih =>
    constructor
    · rintro ⟨hturn, hrest⟩ i e he
      cases i with
      | zero =>
        obtain rfl : e' = e := by simpa using he
        exact hturn
      | succ i => exact ih.mp hrest i e he
    · intro h
      exact ⟨h 0 e' rfl, ih.mpr fun i e he => h (i + 1) e he⟩

/-! ## The two policies side by side -/

section Policies

variable {β : Type} [Board β] {p? : Option Progress}

theorem recordOpen_strict {address : UInt8} (h : ∀ p, p? = some p → p.next = address) :
    (recordOpen .strict p? address : StateM β _) = recordOpen .trust p? address := by
  unfold recordOpen
  rw [Policy.keep_strict_eq h]

theorem openWrite_strict {address : UInt8} (h : ∀ p, p? = some p → p.next = address) :
    openWrite .strict p? address = openWrite .trust p? address := by
  unfold openWrite
  rw [Policy.keep_strict_eq h]

/-- What the first tuple of a frame has to carry. -/
theorem InOrder.next_eq {d : Direction} {p : Progress} {t : Tuple} {es : List Event}
    (h : InOrder (.ofDirection d p?) (.moved d p t :: es)) :
    ∀ q, p? = some q → q.next = t.address := by
  intro q hq
  refine h.1 q ?_
  rw [Activity.inDirection_ofDirection, if_pos rfl, hq]

theorem recordServe_strict (ts : List Tuple) (b : β)
    (h : InOrder (.ofDirection .read p?) (recordServe .trust p? ts b).1.1) :
    recordServe .strict p? ts b = recordServe .trust p? ts b := by
  induction ts generalizing p? b with
  | nil => rfl
  | cons t ts ih =>
    rcases ho : recordOpen .trust p? t.address b with ⟨⟨opening, p⟩, b'⟩
    obtain ⟨-, hhand, -⟩ := recordOpen_possible ho (.ofDirection .read p?)
    rw [recordServe_cons .trust p? t ts b ho] at h ⊢
    by_cases hf : p.advance.Finished
    · simp only [if_pos hf, inOrder_append, hhand] at h ⊢
      have ho' := ho
      rw [← recordOpen_strict h.2.next_eq] at ho'
      rw [recordServe_cons .strict p? t ts b ho', if_pos hf]
    · simp only [if_neg hf, inOrder_append, hhand] at h ⊢
      have ho' := ho
      rw [← recordOpen_strict h.2.next_eq] at ho'
      have hrest : InOrder (.ofDirection .read (some p.advance)) _ :=
        after_read_of_open hf ▸ h.2.2
      rw [recordServe_cons .strict p? t ts b ho', if_neg hf, ih b' hrest]

theorem recordCollect_strict (ts : List Tuple)
    (h : InOrder (.ofDirection .write p?) (recordCollect .trust p? ts).1) :
    recordCollect .strict p? ts = recordCollect .trust p? ts := by
  induction ts generalizing p? with
  | nil => rfl
  | cons t ts ih =>
    rw [recordCollect] at h
    rw [recordCollect, recordCollect]
    by_cases hf : (openWrite .trust p? t.address).Finished
    · simp only [if_pos hf] at h
      rw [openWrite_strict h.next_eq]
      simp only [if_pos hf]
    · by_cases hw : ((openWrite .trust p? t.address).put t.data).Finished
      · simp only [if_neg hf, if_pos hw] at h
        rw [openWrite_strict h.next_eq]
        simp only [if_neg hf, if_pos hw]
      · simp only [if_neg hf, if_neg hw] at h
        have hrest : InOrder (.ofDirection .write (some _)) _ := after_write_of_open hf ▸ h.2
        rw [openWrite_strict h.next_eq]
        simp only [if_neg hf, if_neg hw, ih hrest]

/-- The engine with another policy. -/
def under (policy : Policy) (t : Transfer) : Transfer := { t with policy }

theorem record_strict {t : Transfer} (ht : t.policy = .trust) (i : Input β) (b : β)
    (h : InOrder t.activity (t.record i b).1.1) :
    let r := t.record i b
    (t.under .strict).record i b = ((r.1.1, r.1.2.under .strict), r.2) := by
  cases i with
  | frame direction ts =>
    cases direction with
    | read =>
      rw [record_read_apply, ht] at h ⊢
      have hserve : recordServe .strict t.activity.reading? ts b =
          recordServe .trust t.activity.reading? ts b :=
        recordServe_strict ts b (inOrder_append.mp h.2).1
      rw [record_read_apply]
      simp only [under, hserve]
    | write =>
      rw [record_write_apply, ht] at h ⊢
      have hcollect : recordCollect .strict t.activity.writing? ts =
          recordCollect .trust t.activity.writing? ts :=
        recordCollect_strict ts (inOrder_append.mp h.2).1
      rw [record_write_apply]
      simp only [under, hcollect]
  | reset => rfl
  | drift change => rfl

theorem recordAll_strict {t : Transfer} (ht : t.policy = .trust) (hw : t.activity.Waits)
    (is : List (Input β)) (b : β) (h : InOrder t.activity (t.recordAll is b).1.1.flatten) :
    let r := t.recordAll is b
    (t.under .strict).recordAll is b = ((r.1.1, r.1.2.under .strict), r.2) := by
  induction is generalizing t b with
  | nil => rfl
  | cons i is ih =>
    obtain ⟨-, hhand, hw'⟩ := record_possible hw i b
    rw [recordAll_cons_apply, List.flatten_cons, inOrder_append, hhand] at h
    have hi := record_strict ht i b h.1
    have his := ih ((record_policy t i b).trans ht) hw' (t.record i b).2 h.2
    simp only [recordAll_cons_apply, hi, his]

/-- The journal of the first inputs is the first part of the journal. -/
theorem recordAll_take (t : Transfer) (is : List (Input β)) (n : Nat) (b : β) :
    (t.recordAll (is.take n) b).1.1 = (t.recordAll is b).1.1.take n := by
  induction is generalizing t n b with
  | nil => rw [List.take_nil]; exact List.take_nil.symm
  | cons i is ih =>
    cases n with
    | zero => rfl
    | succ n => exact congrArg _ (ih (t.record i b).1.2 n (t.record i b).2)

end Policies

/-- **The policies agree on a host that keeps the order.** If in a run of a trusting engine every
tuple that is dealt with in the middle of a transfer in its direction carries the next address of
this transfer, whether it goes on from an earlier frame or began earlier in its own, then a strict
engine makes the same of the run: after every input the replies are the same, what is under way is
the same, and so are the board and the calls of it. -/
theorem policies_agree {β : Type} [Board β] (inputs : List (Input (Traced β Board.Call)))
    (b : Traced β Board.Call)
    (h : let log := ((fresh .trust).recordAll inputs b).1.1.flatten
      ∀ (i : Nat) (d : Direction) (p : Progress) (t : Tuple), log[i]? = some (.moved d p t) →
        ∀ q, (inHand .idle (log.take i)).inDirection d = some q → t.address = q.next) (n : Nat) :
    let trusting := (fresh .trust).feedAll (inputs.take n) b
    let strict := (fresh .strict).feedAll (inputs.take n) b
    strict.1.1 = trusting.1.1 ∧ strict.1.2.activity = trusting.1.2.activity ∧
      strict.2 = trusting.2 := by
  intro trusting strict
  have horder : InOrder .idle ((fresh .trust).recordAll inputs b).1.1.flatten := by
    refine inOrder_iff.mpr fun i e he => ?_
    cases e with
    | moved d p t => exact fun q hq => (h i d p t he q hq).symm
    | _ => trivial
  rw [← List.take_append_drop n ((fresh .trust).recordAll inputs b).1.1, List.flatten_append,
    ← recordAll_take] at horder
  have hrun := recordAll_strict (t := fresh .trust) rfl Activity.waits_idle (inputs.take n) b
    (inOrder_append.mp horder).1
  have hs : strict = (fresh .strict).feedAll (inputs.take n) b := rfl
  have ht : trusting = (fresh .trust).feedAll (inputs.take n) b := rfl
  rw [feedAll_apply] at hs ht
  rw [show fresh .strict = (fresh .trust).under .strict from rfl, hrun] at hs
  rw [hs, ht]
  exact ⟨rfl, rfl, rfl⟩

/-- A word for the expansion in two frames, abandoned by a read of the trim that begins and goes on
in one frame, and then sent again: strict and trusting engines set the word once. -/
theorem expansion_word_agrees :
    let inputs : List (Input (Traced (MemoryBoard Ticker) Board.Call)) :=
      [.frame .write [⟨40, 9⟩, ⟨41, 9⟩], .frame .read [⟨34, 0⟩, ⟨35, 0⟩],
        .frame .write [⟨40, 1⟩], .frame .write [⟨41, 2⟩, ⟨42, 3⟩, ⟨43, 4⟩, ⟨0, 5⟩]]
    let b : Traced (MemoryBoard Ticker) Board.Call := ⟨.boot ⟨0, 1⟩, []⟩
    let trusting := (fresh .trust).feedAll inputs b
    let strict := (fresh .strict).feedAll inputs b
    InOrder .idle ((fresh .trust).recordAll inputs b).1.1.flatten ∧
    (strict.1.1 = trusting.1.1 ∧ trusting.1.1 =
      [[⟨0, 0⟩, ⟨1, 0⟩], [⟨0, 0⟩, ⟨1, 0⟩], [⟨0, 0⟩], [⟨1, 0⟩, ⟨2, 0⟩, ⟨3, 0⟩]]) ∧
    (strict.2 = trusting.2 ∧ trusting.2.trace = [.ordered (.setExpansion 0x04030201)]) := by
  intro inputs b trusting strict
  have horder : InOrder .idle ((fresh .trust).recordAll inputs b).1.1.flatten := by decide
  obtain ⟨hreplies, -, hboard⟩ := policies_agree inputs b
    (fun i d p t hi q hq => (inOrder_iff.mp horder i _ hi q hq).symm) 4
  exact ⟨horder, ⟨hreplies, by decide⟩, hboard, by decide⟩

end Transfer

end RadioControl
