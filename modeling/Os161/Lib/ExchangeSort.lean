import Mathlib.Data.List.GetD
import Mathlib.Order.Lattice

/-!
# Sorting by exchanges

The sort that compares every position with all later ones and exchanges the two elements where the later one has
the larger key. The result is a rearrangement of the list in which the keys descend.
-/

namespace Os161.Lib

variable {α β : Type} [LinearOrder β] (d : α) (key : α → β)

/-- The elements at `i` and `j` are exchanged if the second is the larger one. -/
def exchangeAt (data : List α) (i j : Nat) : List α :=
  if key (data.getD i d) < key (data.getD j d) then (data.set i (data.getD j d)).set j (data.getD i d) else data

/-- The sort of a list of `n` elements. -/
def exchangeSort (data : List α) (n : Nat) : List α :=
  (List.range (n - 1)).foldl
    (fun data i => (List.range' (i + 1) (n - 1 - i)).foldl (fun data j => exchangeAt d key data i j) data) data

variable {d key} {data : List α} {n i j m : Nat}

theorem exchangeAt_perm (hi : i < data.length) (hj : j < data.length) : (exchangeAt d key data i j).Perm data := by
  unfold exchangeAt
  split
  · rw [List.getD_eq_getElem _ _ hi, List.getD_eq_getElem _ _ hj]
    exact List.set_set_perm hi hj
  · exact List.Perm.refl _

theorem foldl_perm {γ : Type} {f : List α → γ → List α} {js : List γ} {k : Nat} (hdata : data.length = k)
    (hf : ∀ l, l.length = k → ∀ j ∈ js, (f l j).Perm l) : (js.foldl f data).Perm data := by
  induction js generalizing data with
  | nil => exact List.Perm.refl _
  | cons j js ih =>
    have hj := hf data hdata j List.mem_cons_self
    refine (ih (hj.length_eq.trans hdata) fun l hl j' hj' => hf l hl j' (List.mem_cons_of_mem _ hj')).trans hj

theorem exchangeSort_perm (hdata : data.length = n) : (exchangeSort d key data n).Perm data := by
  refine foldl_perm hdata fun l hl i hi => foldl_perm hl fun l' hl' j hj => ?_
  have hi := List.mem_range.mp hi
  have hj := List.mem_range'_1.mp hj
  exact exchangeAt_perm (by omega) (by omega)

end Os161.Lib
