import Mathlib

/-!
# Stateful actions as functions

An action with a state of type `σ` is a function of that state, and a run does one action for each
input of a list, each on the state that the one before has left.

* `mapM_cons_apply`, `mapM_append_apply`: a run can be cut anywhere.
* `getElem?_mapM_apply`: what an input in the middle of a run gives depends on the earlier ones
  only.
* `keeps_mapM_apply`: what every input keeps true stays true in a run.
* `holds_mapM_apply`: what each input sets or leaves alone holds, after a run, what the latest input
  to set it has stored (`latestStored`).
-/

namespace RadioControl

variable {σ ι α γ : Type}

theorem bind_apply (x : StateM σ α) (f : α → StateM σ γ) (s : σ) :
    (x >>= f) s = f (x s).1 (x s).2 := rfl

theorem pure_apply (a : α) (s : σ) : (pure a : StateM σ α) s = (a, s) := rfl

variable (act : ι → StateM σ α)

theorem mapM_cons_apply (i : ι) (is : List ι) (s : σ) :
    (i :: is).mapM act s =
      let a := act i s
      let rest := is.mapM act a.2
      (a.1 :: rest.1, rest.2) := by
  rw [List.mapM_cons]
  rfl

theorem mapM_append_apply (is js : List ι) (s : σ) :
    (is ++ js).mapM act s =
      let before := is.mapM act s
      let after := js.mapM act before.2
      (before.1 ++ after.1, after.2) := by
  rw [List.mapM_append]
  rfl

theorem length_mapM_apply (is : List ι) (s : σ) : (is.mapM act s).1.length = is.length := by
  induction is generalizing s with
  | nil => rfl
  | cons i is ih => rw [mapM_cons_apply, List.length_cons, List.length_cons, ih]

theorem getElem?_mapM_apply (earlier later : List ι) (i : ι) (s : σ) :
    ((earlier ++ i :: later).mapM act s).1[earlier.length]? =
      some (act i (earlier.mapM act s).2).1 := by
  have hlen := length_mapM_apply act earlier s
  simp only [mapM_append_apply, mapM_cons_apply]
  rw [List.getElem?_append_right (Nat.le_of_eq hlen), hlen, Nat.sub_self, List.getElem?_cons_zero]

/-! ## What a run keeps and what it stores -/

variable {act} {β : Type} (Inv : σ → Prop) (view : σ → β) {stored? : ι → Option β}

theorem keeps_mapM_apply (hinv : ∀ i s, Inv s → Inv (act i s).2) (is : List ι) {s : σ}
    (hs : Inv s) : Inv (is.mapM act s).2 := by
  induction is generalizing s with
  | nil => exact hs
  | cons i is ih =>
    rw [mapM_cons_apply]
    exact ih (hinv i s hs)

/-- What the latest of the inputs to store something has stored. -/
def latestStored (stored? : ι → Option β) (is : List ι) : Option β :=
  is.reverse.findSome? stored?

theorem latestStored_cons (i : ι) (is : List ι) :
    latestStored stored? (i :: is) = (latestStored stored? is).or (stored? i) := by
  unfold latestStored
  rw [List.reverse_cons, List.findSome?_append, List.findSome?_singleton]

theorem holds_mapM_apply (hinv : ∀ i s, Inv s → Inv (act i s).2)
    (hview : ∀ i s, Inv s → view (act i s).2 = (stored? i).getD (view s)) (is : List ι) {s : σ}
    (hs : Inv s) :
    view (is.mapM act s).2 = (latestStored stored? is).getD (view s) := by
  induction is generalizing s with
  | nil => rfl
  | cons i is ih =>
    rw [mapM_cons_apply, latestStored_cons, Option.getD_or, ← hview i s hs]
    exact ih (hinv i s hs)

end RadioControl
