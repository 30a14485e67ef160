import Mathlib.Data.List.Lex
import Mathlib.Data.List.TakeWhile
import Os161.Lib.ExchangeSort
import Os161.Sfsck.Entries

/-!
# `sfsck`: the sorted names

`strcmp` compares strings in the lexicographic order, so that `sortdir` gives a rearrangement of the entries in
which those with one name stand together.
-/

namespace Os161.Sfsck

open Os161.Lib Os161.Sfs

variable {entries : List SfsDir} {nd : Nat}

/-! ## `strcmp` -/

/-- The characters of a string as numbers. -/
def strKey (str : List UInt8) : List Nat := str.map UInt8.toNat

theorem charLt_iff (a b : UInt8) : charLt a b = true ↔ a.toNat < b.toNat := by
  rw [charLt, decide_eq_true_iff, UInt8.lt_iff_toNat_lt]

theorem strcmpNeg_iff {a b : List UInt8} (ha : 0 ∉ a) (hb : 0 ∉ b) :
    strcmpNeg a b = true ↔ strKey a < strKey b := by
  induction a generalizing b with
  | nil =>
    cases b with
    | nil => simp [strcmpNeg, strKey]
    | cons y ys =>
      -- the 0 of the shorter string is below every character
      have hy : 0 < y.toNat := by
        refine Nat.pos_of_ne_zero fun h => hb ?_
        rw [show y = 0 from UInt8.toNat_inj.mp h]
        exact List.mem_cons_self
      show charLt 0 y = true ↔ [] < y.toNat :: _
      exact iff_of_true ((charLt_iff 0 y).mpr hy) (List.nil_lt_cons _ _)
  | cons x xs ih =>
    cases b with
    | nil =>
      show charLt x 0 = true ↔ x.toNat :: _ < []
      refine iff_of_false (fun h => ?_) (List.not_lt_nil _)
      exact absurd ((charLt_iff x 0).mp h) (Nat.not_lt_zero _)
    | cons y ys =>
      have hrest := ih (fun h => ha (List.mem_cons_of_mem _ h)) (b := ys) fun h => hb (List.mem_cons_of_mem _ h)
      show (if x = y then strcmpNeg xs ys else charLt x y) = true ↔ x.toNat :: strKey xs < y.toNat :: strKey ys
      rw [List.cons_lt_cons_iff]
      by_cases hxy : x = y
      · subst hxy
        rw [if_pos rfl]
        exact hrest.trans ⟨fun h => .inr ⟨rfl, h⟩, fun h => (h.resolve_left (lt_irrefl _)).2⟩
      · rw [if_neg hxy, charLt_iff]
        exact ⟨.inl, fun h => h.resolve_right fun h => hxy (UInt8.toNat_inj.mp h.1)⟩

theorem zero_notMem_cstr (name : List UInt8) : 0 ∉ cstr name := by
  intro h
  have := List.mem_takeWhile_imp h
  simp at this

/-! ## `sortdir` -/

/-- The name by which an entry is sorted. -/
def nameAt (entries : List SfsDir) (i : Nat) : List UInt8 := cstr (entryAt entries i).name

theorem exchange_eq (entries : List SfsDir) (data : List Nat) (i j : Nat) :
    exchange entries data i j = exchangeAt 0 (fun a => strKey (nameAt entries a)) data i j := by
  have hiff := @strcmpNeg_iff (nameAt entries (data.getD i 0)) (nameAt entries (data.getD j 0))
    (zero_notMem_cstr _) (zero_notMem_cstr _)
  unfold exchange exchangeAt
  by_cases h : strKey (nameAt entries (data.getD i 0)) < strKey (nameAt entries (data.getD j 0))
  · rw [if_pos h]
    exact if_pos (hiff.mpr h)
  · rw [if_neg h]
    exact if_neg fun h' => h (hiff.mp h')

theorem sortdir_eq (entries : List SfsDir) (nd : Nat) :
    sortdir entries nd = exchangeSort 0 (fun a => strKey (nameAt entries a)) (List.range nd) nd := by
  unfold sortdir exchangeSort
  simp only [exchange_eq]

theorem sortdir_perm (entries : List SfsDir) (nd : Nat) : (sortdir entries nd).Perm (List.range nd) :=
  sortdir_eq entries nd ▸ exchangeSort_perm List.length_range

theorem mem_sortdir {i : Nat} : i ∈ sortdir entries nd ↔ i < nd :=
  (sortdir_perm entries nd).mem_iff.trans List.mem_range

end Os161.Sfsck
