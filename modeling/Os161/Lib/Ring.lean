import Mathlib.Data.Nat.ModEq
import Mathlib.Logic.Function.Basic

/-!
# Rings

A list that stands in a ring of cells, from one position on and around its end. It grows at its head and shrinks at
its tail as long as it is shorter than the ring.
-/

namespace Os161.Lib

variable {β : Type} {n tail : Nat} {ring : Nat → β} {l : List β} {c : β}

/-- `l` stands in a ring of `n` cells from position `tail` on. -/
def Window (n : Nat) (ring : Nat → β) (tail : Nat) (l : List β) : Prop :=
  ∀ k c, l[k]? = some c → ring ((tail + k) % n) = c

theorem Window.nil : Window n ring tail ([] : List β) := fun _ _ h => by cases h

theorem eq_of_add_mod_eq {i j : Nat} (hi : i < n) (hj : j < n) (h : (tail + i) % n = (tail + j) % n) : i = j :=
  Nat.ModEq.eq_of_lt_of_lt (Nat.ModEq.add_left_cancel' tail h) hi hj

theorem Window.update (h : Window n ring tail l) (hlen : l.length < n) (c : β) :
    Window n (Function.update ring ((tail + l.length) % n) c) tail l := by
  intro k d hd
  have hk : k < l.length := (List.getElem?_eq_some_iff.mp hd).1
  have hne : (tail + k) % n ≠ (tail + l.length) % n := fun heq =>
    absurd (eq_of_add_mod_eq (Nat.lt_trans hk hlen) hlen heq) (Nat.ne_of_lt hk)
  rw [Function.update_of_ne hne]
  exact h k d hd

theorem Window.push (h : Window n ring tail l) (hc : ring ((tail + l.length) % n) = c) :
    Window n ring tail (l ++ [c]) := by
  intro k d hd
  rcases Nat.lt_trichotomy k l.length with hk | rfl | hk
  · exact h k d (by rwa [List.getElem?_append_left hk] at hd)
  · rw [List.getElem?_concat_length] at hd
    cases hd
    exact hc
  · rw [List.getElem?_eq_none (by simp; omega)] at hd
    cases hd

theorem Window.front (h : Window n ring tail (c :: l)) : ring (tail % n) = c := h 0 c rfl

theorem Window.pop (h : Window n ring tail (c :: l)) : Window n ring ((tail + 1) % n) l := by
  intro k d hd
  rw [Nat.mod_add_mod, Nat.add_assoc, Nat.add_comm 1]
  exact h (k + 1) d hd

end Os161.Lib
