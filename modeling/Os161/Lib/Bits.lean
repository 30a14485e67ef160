import Mathlib.Algebra.Ring.Nat
import Mathlib.Tactic.Common

/-!
# Bits in a list of words

A list of words of `w` bits as a list of bits: bit `i` is bit `i % w` of word `i / w`. Setting and clearing one bit
of one word sets and clears one bit of the list.
-/

namespace Os161.Lib

variable {w k ix : Nat} {word : BitVec w} {v : List (BitVec w)}
variable {i : Nat}

/-! ## One word -/

theorem and_twoPow_eq_zero_iff (hk : k < w) : word &&& BitVec.twoPow w k = 0#w ↔ word.getLsbD k = false := by
  rw [BitVec.and_twoPow]
  split
  · rename_i hbit
    rw [hbit]
    refine ⟨fun hzero => ?_, nofun⟩
    have hk' := congrArg (BitVec.getLsbD · k) hzero
    simp [hk] at hk'
  · rename_i hbit
    simpa using hbit

theorem exists_clear_of_ne_allOnes (h : word ≠ BitVec.allOnes w) : ∃ k < w, word.getLsbD k = false := by
  by_contra hnone
  push Not at hnone
  refine h (BitVec.eq_of_getLsbD_eq fun k hk => ?_)
  rw [BitVec.getLsbD_allOnes, decide_eq_true hk]
  simpa using hnone k hk

/-! ## The list -/

/-- Bit `i` of a list of words; behind the list they are 0. -/
def bitAt (v : List (BitVec w)) (i : Nat) : Bool := (v.getD (i / w) 0).getLsbD (i % w)

theorem bitAt_eq (h : v[i / w]? = some word) : bitAt v i = word.getLsbD (i % w) := by
  unfold bitAt
  rw [List.getD_eq_getElem?_getD, h]
  rfl

theorem eq_mul_add_iff (hk : k < w) : i = ix * w + k ↔ i / w = ix ∧ i % w = k := by
  constructor
  · rintro rfl
    refine ⟨?_, ?_⟩
    · rw [Nat.add_comm, Nat.add_mul_div_right _ _ (Nat.zero_lt_of_lt hk), Nat.div_eq_of_lt hk, Nat.zero_add]
    · rw [Nat.add_comm, Nat.add_mul_mod_self_right, Nat.mod_eq_of_lt hk]
  · rintro ⟨rfl, rfl⟩
    exact (Nat.div_add_mod' i w).symm

theorem bitAt_mul_add (h : v[ix]? = some word) (hk : k < w) : bitAt v (ix * w + k) = word.getLsbD k := by
  have ⟨hdiv, hmod⟩ : (ix * w + k) / w = ix ∧ (ix * w + k) % w = k := (eq_mul_add_iff hk).mp rfl
  rw [← hdiv] at h
  rw [bitAt_eq h, hmod]

theorem bitAt_set (hix : ix < v.length) (word' : BitVec w) (i : Nat) :
    bitAt (v.set ix word') i = if i / w = ix then word'.getLsbD (i % w) else bitAt v i := by
  unfold bitAt
  rw [List.getD_eq_getElem?_getD, List.getD_eq_getElem?_getD, List.getElem?_set]
  by_cases h : ix = i / w
  · rw [if_pos h, if_pos h.symm, if_pos hix]
    rfl
  · rw [if_neg h, if_neg (Ne.symm h)]

theorem bitAt_set_or (h : v[ix]? = some word) (hk : k < w) (i : Nat) :
    bitAt (v.set ix (word ||| BitVec.twoPow w k)) i = (bitAt v i || decide (i = ix * w + k)) := by
  rw [bitAt_set (List.getElem?_eq_some_iff.mp h).1, BitVec.getLsbD_or, BitVec.getLsbD_twoPow]
  by_cases hi : i / w = ix
  · subst hi
    have hbit : decide (i = i / w * w + k) = decide (i % w = k) :=
      decide_eq_decide.mpr ((eq_mul_add_iff hk).trans (and_iff_right rfl))
    rw [if_pos rfl, bitAt_eq h, hbit]
    simp [hk, eq_comm]
  · rw [if_neg hi, decide_eq_false fun heq => hi ((eq_mul_add_iff hk).mp heq).1, Bool.or_false]

theorem bitAt_set_and_not (h : v[ix]? = some word) (hk : k < w) (i : Nat) :
    bitAt (v.set ix (word &&& ~~~ BitVec.twoPow w k)) i = (bitAt v i && !decide (i = ix * w + k)) := by
  rw [bitAt_set (List.getElem?_eq_some_iff.mp h).1, BitVec.getLsbD_and, BitVec.getLsbD_not, BitVec.getLsbD_twoPow]
  by_cases hi : i / w = ix
  · subst hi
    have hbit : decide (i = i / w * w + k) = decide (i % w = k) :=
      decide_eq_decide.mpr ((eq_mul_add_iff hk).trans (and_iff_right rfl))
    have hlt : i % w < w := Nat.mod_lt i (Nat.zero_lt_of_lt hk)
    rw [if_pos rfl, bitAt_eq h, hbit]
    simp [hk, hlt, eq_comm]
  · rw [if_neg hi, decide_eq_false fun heq => hi ((eq_mul_add_iff hk).mp heq).1, Bool.not_false, Bool.and_true]

end Os161.Lib
