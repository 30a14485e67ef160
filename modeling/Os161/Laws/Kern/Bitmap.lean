import Os161.Kern.Bitmap
import Mathlib.Data.Set.Insert

/-!
# Bitmaps are sets

A bitmap holds the set of its marked indices, and its leftover bits are always set. That is all an operation needs
to know: the scan of `bitmap_alloc` finds the first clear bit, which cannot be a leftover one, so it is the least
index that is not in the set.
-/

namespace Os161.Kern

open Os161.Lib

variable {b : Bitmap} {S : Set Nat} {nbits index : BitVec 32} {ix k : Nat} {word : BitVec 8}
variable {i n : Nat}

/-! ## Numbers of words -/

theorem toNat_bitmapWords (h : nbits.toNat ≤ 2 ^ 32 - 8) : (bitmapWords nbits).toNat = (nbits.toNat + 7) / 8 := by
  have hsum : (nbits + 8#32 - 1#32).toNat = nbits.toNat + 7 := by
    simp only [BitVec.toNat_sub, BitVec.toNat_add, BitVec.toNat_ofNat]
    omega
  rw [bitmapWords, BitVec.toNat_udiv, hsum]
  rfl

/-! ## The set of a bitmap -/

/-- The bitmap holds the set `S`, and its leftover bits are set. -/
structure Bitmap.Holds (b : Bitmap) (S : Set Nat) : Prop where
  small : b.nbits.toNat ≤ 2 ^ 32 - 8
  length_v : b.v.length = (b.nbits.toNat + 7) / 8
  bits : ∀ i < b.v.length * 8, bitAt b.v i = true ↔ b.nbits.toNat ≤ i ∨ i ∈ S

theorem Bitmap.word_eq (h : b.v[ix]? = some word) : b.word ix = .ok word := by
  rw [Bitmap.word, h]

theorem Bitmap.Holds.exists_word (h : b.Holds S) (hi : i < b.nbits.toNat) :
    ∃ word, b.v[i / 8]? = some word := by
  have hlength := h.length_v
  exact ⟨_, List.getElem?_eq_getElem (by omega)⟩

theorem Bitmap.Holds.mem_iff (h : b.Holds S) (hi : i < b.nbits.toNat) : bitAt b.v i = true ↔ i ∈ S := by
  have hlength := h.length_v
  rw [h.bits i (by omega), or_iff_right (by omega)]

theorem Bitmap.Holds.set (h : b.Holds S) (hword : b.v[ix]? = some word) (hk : k < 8) :
    (b.setWord ix (word ||| 1#8 <<< k)).Holds (insert (ix * 8 + k) S) where
  small := h.small
  length_v := List.length_set.trans h.length_v
  bits i hi := by
    have hi' : i < b.v.length * 8 := by rwa [Bitmap.setWord, List.length_set] at hi
    have hbit := bitAt_set_or hword hk i
    change bitAt (b.v.set ix (word ||| BitVec.twoPow 8 k)) i = true ↔ b.nbits.toNat ≤ i ∨ _
    rw [hbit, Bool.or_eq_true, h.bits i hi', decide_eq_true_iff, Set.mem_insert_iff]
    tauto

theorem Bitmap.Holds.clear (h : b.Holds S) (hword : b.v[ix]? = some word) (hk : k < 8)
    (hlt : ix * 8 + k < b.nbits.toNat) : (b.setWord ix (word &&& ~~~ (1#8 <<< k))).Holds (S \ {ix * 8 + k}) where
  small := h.small
  length_v := List.length_set.trans h.length_v
  bits i hi := by
    have hi' : i < b.v.length * 8 := by rwa [Bitmap.setWord, List.length_set] at hi
    have hbit := bitAt_set_and_not hword hk i
    change bitAt (b.v.set ix (word &&& ~~~ BitVec.twoPow 8 k)) i = true ↔ b.nbits.toNat ≤ i ∨ _
    rw [hbit, Bool.and_eq_true, h.bits i hi', Bool.not_eq_true', decide_eq_false_iff_not, Set.mem_sdiff,
      Set.mem_singleton_iff]
    have hne : b.nbits.toNat ≤ i → i ≠ ix * 8 + k := fun hle => by omega
    tauto

theorem and_mask_eq_zero_iff (hword : b.v[ix]? = some word) (hk : k < 8) :
    word &&& 1#8 <<< k = 0 ↔ bitAt b.v (ix * 8 + k) = false := by
  rw [bitAt_mul_add hword hk]
  exact and_twoPow_eq_zero_iff hk

/-! ## Creation -/

theorem markLeftover_ok (hword : ix < b.v.length) {j : Nat} (hj : j + n = 8) :
    ∃ b', markLeftover ix n j b = .ok b' ∧ b'.nbits = b.nbits ∧ b'.v.length = b.v.length ∧
      ∀ i, bitAt b'.v i = true ↔ bitAt b.v i = true ∨ ix * 8 + j ≤ i ∧ i < ix * 8 + 8 := by
  -- The induction is on the bits that are still to be marked; the bits marked already are those below `j`.
  induction n generalizing j b with
  | zero =>
    refine ⟨b, rfl, rfl, rfl, fun i => ?_⟩
    have hempty : ¬ (ix * 8 + j ≤ i ∧ i < ix * 8 + 8) := by omega
    simp only [hempty, or_false]
  | succ n ih =>
    have hget : b.v[ix]? = some (b.v.get ⟨ix, hword⟩) := List.getElem?_eq_getElem hword
    have hmore : ix < (b.setWord ix (b.v.get ⟨ix, hword⟩ ||| 1#8 <<< j)).v.length := by
      rwa [Bitmap.setWord, List.length_set]
    obtain ⟨b', hrun, hnbits, hlength, hbits⟩ := ih hmore (show j + 1 + n = 8 by omega)
    refine ⟨b', ?_, hnbits, hlength.trans List.length_set, fun i => ?_⟩
    · rw [markLeftover, Bitmap.word_eq hget]
      exact hrun
    · have hbit := bitAt_set_or hget (show j < 8 by omega) i
      rw [hbits i]
      change bitAt (b.v.set ix (_ ||| BitVec.twoPow 8 j)) i = true ∨ _ ↔ _
      rw [hbit, Bool.or_eq_true, decide_eq_true_iff]
      have hsplit : ix * 8 + j ≤ i ∧ i < ix * 8 + 8 ↔
          i = ix * 8 + j ∨ ix * 8 + (j + 1) ≤ i ∧ i < ix * 8 + 8 := by omega
      rw [hsplit, or_assoc]

theorem bitAt_replicate_zero (n i : Nat) : bitAt (List.replicate n (0 : BitVec 8)) i = false := by
  unfold bitAt
  rw [List.getD_eq_getElem?_getD, List.getElem?_replicate]
  split <;> exact BitVec.getLsbD_zero

theorem bitmapCreate_ok (h : nbits.toNat ≤ 2 ^ 32 - 8) :
    ∃ b, bitmapCreate nbits = .ok b ∧ b.nbits = nbits ∧ b.Holds ∅ := by
  have hwords := toNat_bitmapWords h
  have hdiv : (nbits / 8#32).toNat = nbits.toNat / 8 := BitVec.toNat_udiv ..
  by_cases hover : nbits / 8#32 < bitmapWords nbits
  · have hgap : nbits.toNat / 8 < (nbits.toNat + 7) / 8 := by
      rw [← hdiv, ← hwords]
      exact hover
    have hix : (bitmapWords nbits - 1#32).toNat = nbits.toNat / 8 := by
      rw [BitVec.toNat_sub, hwords]
      simp only [BitVec.toNat_ofNat]
      omega
    have hoverbits : (nbits - (bitmapWords nbits - 1#32) * 8#32).toNat = nbits.toNat % 8 := by
      rw [BitVec.toNat_sub, BitVec.toNat_mul, hix]
      simp only [BitVec.toNat_ofNat]
      omega
    have hsame : nbits / 8#32 = bitmapWords nbits - 1#32 := BitVec.eq_of_toNat_eq (hdiv.trans hix.symm)
    have hrange : 0#32 < nbits - (bitmapWords nbits - 1#32) * 8#32 ∧
        nbits - (bitmapWords nbits - 1#32) * 8#32 < 8#32 := by
      rw [BitVec.lt_def, BitVec.lt_def, hoverbits]
      simp only [BitVec.toNat_ofNat]
      omega
    let blank : Bitmap := { nbits := nbits, v := List.replicate (bitmapWords nbits).toNat 0 }
    have hlast : nbits.toNat / 8 < blank.v.length := by
      rw [List.length_replicate, hwords]
      exact hgap
    have hle : nbits.toNat % 8 ≤ bitsPerWord := (Nat.mod_lt _ (by decide)).le
    obtain ⟨b, hrun, hnbits, hlength, hbits⟩ := markLeftover_ok hlast (Nat.add_sub_cancel' hle)
    rw [show blank.v.length = (nbits.toNat + 7) / 8 from List.length_replicate.trans hwords] at hlength
    refine ⟨b, ?_, hnbits, hnbits ▸ h, hnbits ▸ hlength, fun i hi => ?_⟩
    · simp only [bitmapCreate, if_pos hover, if_pos hsame, if_pos hrange, hix, hoverbits]
      exact hrun
    · rw [hlength] at hi
      have hblank : bitAt blank.v i = false := bitAt_replicate_zero ..
      rw [hbits i, hblank, hnbits]
      change _ ↔ nbits.toNat ≤ i ∨ False
      simp only [Bool.false_eq_true, false_or, or_false]
      omega
  · have hgap : ¬ nbits.toNat / 8 < (nbits.toNat + 7) / 8 := by
      rw [← hdiv, ← hwords]
      exact hover
    refine ⟨{ nbits := nbits, v := List.replicate (bitmapWords nbits).toNat 0 }, ?_, rfl, h, ?_, fun i hi => ?_⟩
    · rw [bitmapCreate]
      exact if_neg hover
    · exact List.length_replicate.trans hwords
    · change i < (List.replicate _ _).length * 8 at hi
      rw [List.length_replicate, hwords] at hi
      change bitAt (List.replicate _ 0) i = true ↔ nbits.toNat ≤ i ∨ False
      rw [bitAt_replicate_zero]
      simp only [Bool.false_eq_true, or_false, false_iff]
      omega

/-! ## Allocation -/

/-- What the set says about an answer of `bitmap_alloc`, and the set after it. -/
inductive Allocates (n : Nat) (S : Set Nat) : Option (BitVec 32) → Set Nat → Prop
  | least {i : BitVec 32} (below : i.toNat < n) (free : i.toNat ∉ S) (least : ∀ j < i.toNat, j ∈ S) :
      Allocates n S (some i) (insert i.toNat S)
  | full (all : ∀ j < n, j ∈ S) : Allocates n S none S

theorem allocBit_ok (h : b.Holds S) (hword : b.v[ix]? = some word) {offset : Nat} (hoffset : offset + n = 8)
    (hbefore : ∀ i < ix * 8 + offset, bitAt b.v i = true) (hclear : ∃ k < 8, word.getLsbD k = false) :
    ∃ i b' S', allocBit b ix word n offset = .ok (some i, b') ∧ Allocates b.nbits.toNat S (some i) S' ∧
      b'.nbits = b.nbits ∧ b'.Holds S' := by
  have hix : ix < b.v.length := (List.getElem?_eq_some_iff.mp hword).1
  have hlength := h.length_v
  have hsmall := h.small
  induction n generalizing offset with
  | zero =>
    obtain ⟨k, hk, hfalse⟩ := hclear
    have hset := hbefore (ix * 8 + k) (by omega)
    rw [bitAt_mul_add hword hk, hfalse] at hset
    cases hset
  | succ n ih =>
    have hoff : offset < 8 := by omega
    rw [allocBit]
    by_cases hbit : word &&& 1#8 <<< offset = 0
    · -- A leftover bit is set, so the clear one is an index in range.
      have hfalse := (and_mask_eq_zero_iff hword hoff).mp hbit
      have hnot : ¬ (b.nbits.toNat ≤ ix * 8 + offset ∨ ix * 8 + offset ∈ S) := fun hor => by
        have htrue := (h.bits (ix * 8 + offset) (by omega)).mpr hor
        rw [hfalse] at htrue
        cases htrue
      obtain ⟨hlt, hfree⟩ := not_or.mp hnot
      have hindex : (BitVec.ofNat 32 ix * 8#32 + BitVec.ofNat 32 offset).toNat = ix * 8 + offset := by
        simp only [BitVec.toNat_add, BitVec.toNat_mul, BitVec.toNat_ofNat]
        omega
      have hbelow : BitVec.ofNat 32 ix * 8#32 + BitVec.ofNat 32 offset < b.nbits := by
        rw [BitVec.lt_def, hindex]
        exact Nat.lt_of_not_le hlt
      have hholds := h.set hword hoff
      rw [if_pos hbit]
      refine ⟨_, _, _, if_pos hbelow, .least ?_ ?_ fun j hj => ?_, rfl, ?_⟩
      · exact hbelow
      · rwa [hindex]
      · rw [hindex] at hj
        exact (h.mem_iff (by omega)).mp (hbefore j hj)
      · rwa [hindex]
    · rw [if_neg hbit]
      refine ih (by omega) fun i hi => ?_
      rcases Nat.lt_or_ge i (ix * 8 + offset) with hlt | hge
      · exact hbefore i hlt
      · have heq : i = ix * 8 + offset := by omega
        subst heq
        rwa [and_mask_eq_zero_iff hword hoff, Bool.not_eq_false] at hbit

theorem allocWord_ok (h : b.Holds S) (hn : ix + n = b.v.length)
    (hbefore : ∀ i < ix * 8, bitAt b.v i = true) :
    ∃ answer b' S', allocWord b n ix = .ok (answer, b') ∧ Allocates b.nbits.toNat S answer S' ∧
      b'.nbits = b.nbits ∧ b'.Holds S' := by
  induction n generalizing ix with
  | zero =>
    refine ⟨none, b, S, rfl, .full fun j hj => ?_, rfl, h⟩
    have hlength := h.length_v
    exact (h.mem_iff hj).mp (hbefore j (by omega))
  | succ n ih =>
    have hget : b.v[ix]? = some (b.v.get ⟨ix, by omega⟩) := List.getElem?_eq_getElem (by omega)
    generalize b.v.get ⟨ix, by omega⟩ = word at hget
    rw [allocWord, Bitmap.word_eq hget]
    by_cases hfull : word ≠ wordAllbits
    · obtain ⟨i, b', S', hrun, hkept⟩ := allocBit_ok h hget (show 0 + bitsPerWord = 8 from rfl) hbefore
        (exists_clear_of_ne_allOnes hfull)
      exact ⟨some i, b', S', (if_pos hfull).trans hrun, hkept⟩
    · obtain ⟨answer, b', S', hrun, hkept⟩ := ih (by omega : ix + 1 + n = b.v.length) fun i hi => by
        rcases Nat.lt_or_ge i (ix * 8) with hlt | hge
        · exact hbefore i hlt
        · have hk : i - ix * 8 < 8 := by omega
          have hbit := bitAt_mul_add hget hk
          rw [Nat.add_sub_cancel' hge] at hbit
          rw [hbit, not_ne_iff.mp hfull]
          change (BitVec.allOnes 8).getLsbD _ = true
          rw [BitVec.getLsbD_allOnes, decide_eq_true hk]
      exact ⟨answer, b', S', (if_neg hfull).trans hrun, hkept⟩

theorem bitmapAlloc_ok (h : b.Holds S) :
    ∃ answer b' S', bitmapAlloc b = .ok (answer, b') ∧ Allocates b.nbits.toNat S answer S' ∧
      b'.nbits = b.nbits ∧ b'.Holds S' := by
  have hn : 0 + (bitmapWords b.nbits).toNat = b.v.length := by
    rw [toNat_bitmapWords h.small, h.length_v, Nat.zero_add]
  exact allocWord_ok h hn nofun

/-! ## Marks -/

theorem bitmapTranslate_eq (index : BitVec 32) :
    bitmapTranslate index = (index.toNat / 8, 1#8 <<< (index.toNat % 8)) := rfl

theorem bitmapIsset_ok (h : b.Holds S) (hlt : index < b.nbits) :
    ∃ word, bitmapIsset b index = .ok word ∧ (word ≠ 0 ↔ index.toNat ∈ S) := by
  obtain ⟨word, hword⟩ := h.exists_word hlt
  have hk : index.toNat % 8 < 8 := Nat.mod_lt _ (by decide)
  refine ⟨word &&& 1#8 <<< (index.toNat % 8), ?_, ?_⟩
  · simp only [bitmapIsset, bitmapTranslate_eq, Bitmap.word_eq hword]
    rfl
  · rw [Ne, and_mask_eq_zero_iff hword hk, Nat.div_add_mod', Bool.not_eq_false, h.mem_iff hlt]

theorem bitmapMark_ok (h : b.Holds S) (hlt : index < b.nbits) (hfree : index.toNat ∉ S) :
    ∃ b', bitmapMark b index = .ok b' ∧ b'.nbits = b.nbits ∧ b'.Holds (insert index.toNat S) := by
  obtain ⟨word, hword⟩ := h.exists_word hlt
  have hk : index.toNat % 8 < 8 := Nat.mod_lt _ (by decide)
  have hzero : word &&& 1#8 <<< (index.toNat % 8) = 0 := by
    rw [and_mask_eq_zero_iff hword hk, Nat.div_add_mod']
    exact Bool.eq_false_iff.mpr fun htrue => hfree ((h.mem_iff hlt).mp htrue)
  have hholds := h.set hword hk
  rw [Nat.div_add_mod'] at hholds
  refine ⟨_, ?_, ?_, hholds⟩
  · simp only [bitmapMark, bitmapTranslate_eq, if_pos hlt, Bitmap.word_eq hword]
    exact if_pos hzero
  · rfl

theorem bitmapUnmark_ok (h : b.Holds S) (hlt : index < b.nbits) (hmem : index.toNat ∈ S) :
    ∃ b', bitmapUnmark b index = .ok b' ∧ b'.nbits = b.nbits ∧ b'.Holds (S \ {index.toNat}) := by
  obtain ⟨word, hword⟩ := h.exists_word hlt
  have hk : index.toNat % 8 < 8 := Nat.mod_lt _ (by decide)
  have hone : word &&& 1#8 <<< (index.toNat % 8) ≠ 0 := by
    rw [Ne, and_mask_eq_zero_iff hword hk, Nat.div_add_mod', Bool.not_eq_false]
    exact (h.mem_iff hlt).mpr hmem
  have hholds := h.clear hword hk (by rw [Nat.div_add_mod']; exact hlt)
  rw [Nat.div_add_mod'] at hholds
  refine ⟨_, ?_, ?_, hholds⟩
  · simp only [bitmapUnmark, bitmapTranslate_eq, if_pos hlt, Bitmap.word_eq hword]
    exact if_pos hone
  · rfl

/-! ## Runs -/

/-- One change of a set of indices below `n`, with its answer. -/
inductive SetStep (n : Nat) (S : Set Nat) : BitmapOp → Option (BitVec 32) → Set Nat → Prop
  | alloc {answer S'} (h : Allocates n S answer S') : SetStep n S .alloc answer S'
  | mark (index : BitVec 32) : SetStep n S (.mark index) none (insert index.toNat S)
  | unmark (index : BitVec 32) : SetStep n S (.unmark index) none (S \ {index.toNat})

/-- Changes one after another. -/
inductive SetRun (n : Nat) : Set Nat → List BitmapOp → List (Option (BitVec 32)) → Set Nat → Prop
  | nil (S : Set Nat) : SetRun n S [] [] S
  | cons {S op answer T rest answers U} (step : SetStep n S op answer T) (run : SetRun n T rest answers U) :
      SetRun n S (op :: rest) (answer :: answers) U

/-- Only clear bits are marked and only set ones unmarked, all below `n`. -/
def BitmapOp.Allowed (n : Nat) (S : Set Nat) : BitmapOp → Prop
  | .alloc => True
  | .mark index => index.toNat < n ∧ index.toNat ∉ S
  | .unmark index => index.toNat < n ∧ index.toNat ∈ S

/-- Every change is allowed in the set it finds. -/
def AllowedRun (n : Nat) : Set Nat → List BitmapOp → Prop
  | _, [] => True
  | S, op :: rest => op.Allowed n S ∧ ∀ answer T, SetStep n S op answer T → AllowedRun n T rest

theorem exec_ok (h : b.Holds S) {op : BitmapOp} (hop : op.Allowed b.nbits.toNat S) :
    ∃ answer b' S', op.exec b = .ok (answer, b') ∧ SetStep b.nbits.toNat S op answer S' ∧
      b'.nbits = b.nbits ∧ b'.Holds S' := by
  cases op with
  | alloc =>
    obtain ⟨answer, b', S', hrun, hanswer, hkept⟩ := bitmapAlloc_ok h
    exact ⟨answer, b', S', hrun, .alloc hanswer, hkept⟩
  | mark index =>
    obtain ⟨b', hrun, hkept⟩ := bitmapMark_ok h hop.1 hop.2
    exact ⟨none, b', _, by rw [BitmapOp.exec, hrun]; rfl, .mark index, hkept⟩
  | unmark index =>
    obtain ⟨b', hrun, hkept⟩ := bitmapUnmark_ok h hop.1 hop.2
    exact ⟨none, b', _, by rw [BitmapOp.exec, hrun]; rfl, .unmark index, hkept⟩

theorem bitmapRun_ok (h : b.Holds S) {ops : List BitmapOp} (hops : AllowedRun b.nbits.toNat S ops) :
    ∃ answers b' S', bitmapRun b ops = .ok (answers, b') ∧ SetRun b.nbits.toNat S ops answers S' ∧
      b'.nbits = b.nbits ∧ b'.Holds S' := by
  induction ops generalizing b S with
  | nil => exact ⟨[], b, S, rfl, .nil S, rfl, h⟩
  | cons op rest ih =>
    obtain ⟨answer, b₁, T, hexec, hstep, hnbits, hholds⟩ := exec_ok h hops.1
    have hrest := hops.2 answer T hstep
    rw [← hnbits] at hrest
    obtain ⟨answers, b₂, U, hrun, hset, hnbits', hholds'⟩ := ih hholds hrest
    rw [hnbits] at hset hnbits'
    refine ⟨answer :: answers, b₂, U, ?_, .cons hstep hset, hnbits', hholds'⟩
    rw [bitmapRun, hexec]
    change (bitmapRun b₁ rest >>= _) = _
    rw [hrun]
    rfl

/-- A new bitmap is an empty set, and stays the set of its marked indices under every sequence of changes: an
allocation gives the least index below `nbits` outside the set, or `ENOSPC` when there is none. -/
theorem bitmap_is_set (h : nbits.toNat ≤ 2 ^ 32 - 8) :
    ∃ b, bitmapCreate nbits = .ok b ∧ ∀ ops, AllowedRun nbits.toNat ∅ ops →
      ∃ answers b' S, bitmapRun b ops = .ok (answers, b') ∧ SetRun nbits.toNat ∅ ops answers S ∧
        ∀ index < nbits, ∃ word, bitmapIsset b' index = .ok word ∧ (word ≠ 0 ↔ index.toNat ∈ S) := by
  obtain ⟨b, hcreate, rfl, hholds⟩ := bitmapCreate_ok h
  refine ⟨b, hcreate, fun ops hops => ?_⟩
  obtain ⟨answers, b', S, hrun, hset, hnbits, hholds'⟩ := bitmapRun_ok hholds hops
  exact ⟨answers, b', S, hrun, hset, fun index hlt => bitmapIsset_ok hholds' (hnbits ▸ hlt)⟩

theorem bitmap_of_ten_marked : ∃ b, bitmapCreate 10#32 = .ok b ∧
    ∃ answers b' S, bitmapRun b [.mark 9, .unmark 9] = .ok (answers, b') ∧
      SetRun 10 ∅ [.mark 9, .unmark 9] answers S ∧
      ∀ index < 10#32, ∃ word, bitmapIsset b' index = .ok word ∧ (word ≠ 0 ↔ index.toNat ∈ S) := by
  obtain ⟨b, hcreate, hall⟩ := bitmap_is_set (show (10#32).toNat ≤ 2 ^ 32 - 8 by decide)
  refine ⟨b, hcreate, hall _ ⟨⟨by decide, Set.notMem_empty _⟩, fun answer T hstep => ?_⟩⟩
  cases hstep
  exact ⟨⟨by decide, Set.mem_insert ..⟩, fun _ _ _ => trivial⟩

end Os161.Kern
