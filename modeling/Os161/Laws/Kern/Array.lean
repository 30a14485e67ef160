import Os161.Kern.Array
import Os161.Laws.Kern.Memory

/-!
# Resizing an array

`array_setsize` keeps its promises as long as the doubled size and its number of bytes fit a word. From 2^30 elements
on the number of bytes asked of `kmalloc` wraps, and beyond 2^31 the loop may never end.
-/

namespace Os161.Kern

open Os161.Lib

variable {heap : Heap} {turns n k : Nat} {a : PtrArray} {num c r : Word} {m : Memory} {o : Resized}
variable {i : Nat}

/-! ## The loop -/

theorem le_of_doubleMax (h : doubleMax num n c = some r) : num ≤ r := by
  induction n generalizing c with
  | zero => cases h
  | succ n ih =>
    rw [doubleMax] at h
    split at h
    · exact ih h
    · cases h
      exact BitVec.not_lt.mp ‹_›

/-- Where the doubling starts. -/
def firstMax (c : Word) : Word := if c = 0 then 4#32 else c

theorem firstMax_ne_zero (c : Word) : firstMax c ≠ 0 := by
  unfold firstMax
  split
  · decide
  · assumption

theorem exists_doubleMax_firstMax (hc : c < num) :
    (∃ n, doubleMax num n c = some r) ↔ ∃ n, doubleMax num n (firstMax c) = some r := by
  unfold firstMax
  split
  · subst c
    constructor
    · rintro ⟨n, h⟩
      cases n with
      | zero => cases h
      | succ n => exact ⟨n, by rwa [doubleMax, if_pos hc] at h⟩
    · rintro ⟨n, h⟩
      exact ⟨n + 1, by rwa [doubleMax, if_pos hc]⟩
  · rfl

theorem doubleMax_double (hc : c ≠ 0) (hlt : c < num) (n : Nat) :
    doubleMax num (n + 1) c = doubleMax num n (c * 2#32) := by
  rw [doubleMax, if_pos hlt, if_pos hc]

theorem toNat_double (hc : c ≠ 0) (hlt : c.toNat < 2 ^ 31) :
    c * 2#32 ≠ 0 ∧ (c * 2#32).toNat = c.toNat * 2 := by
  have hpos : c.toNat ≠ 0 := fun h => hc (BitVec.eq_of_toNat_eq h)
  have hmul : (c * 2#32).toNat = c.toNat * 2 := by
    rw [BitVec.toNat_mul]
    exact Nat.mod_eq_of_lt (by simp; omega)
  refine ⟨fun h => ?_, hmul⟩
  rw [h] at hmul
  change 0 = _ at hmul
  omega

theorem doubleMax_eq (hc : c ≠ 0) (h : doubleMax num n c = some r) (hr : r.toNat < 2 ^ 30) :
    ∃ k, r.toNat = c.toNat * 2 ^ k := by
  have hle := le_of_doubleMax h
  induction n generalizing c with
  | zero => cases h
  | succ n ih =>
    by_cases hlt : c < num
    · rw [doubleMax_double hc hlt] at h
      rw [BitVec.lt_def] at hlt
      rw [BitVec.le_def] at hle
      obtain ⟨hne, hdouble⟩ := toNat_double hc (by omega)
      obtain ⟨k, hk⟩ := ih hne h
      exact ⟨k + 1, by rw [hk, hdouble, Nat.pow_succ', Nat.mul_assoc]⟩
    · rw [doubleMax, if_neg hlt] at h
      cases h
      exact ⟨0, by rw [Nat.pow_zero, Nat.mul_one]⟩

theorem exists_doubleMax (hc : c ≠ 0) (hnum : num.toNat ≤ c.toNat * 2 ^ k) (hk : c.toNat * 2 ^ k < 2 ^ 30) :
    ∃ n r, doubleMax num n c = some r ∧ r.toNat < 2 ^ 30 := by
  induction k generalizing c with
  | zero =>
    refine ⟨1, c, if_neg ?_, by omega⟩
    rw [BitVec.lt_def]
    omega
  | succ k ih =>
    have hpow := Nat.le_mul_of_pos_right c.toNat (Nat.two_pow_pos (k + 1))
    by_cases hlt : c < num
    · obtain ⟨hne, hdouble⟩ := toNat_double hc (by omega)
      rw [Nat.pow_succ', ← Nat.mul_assoc, ← hdouble] at hnum hk
      obtain ⟨n, r, hrun, hr⟩ := ih hne hnum hk
      exact ⟨n + 1, r, (doubleMax_double hc hlt n).trans hrun, hr⟩
    · exact ⟨1, c, if_neg hlt, by omega⟩

/-! ## The call -/

/-- The bytes of the elements of an array. -/
def PtrArray.bytes (a : PtrArray) : List Word := span a.v (4 * a.num.toNat)

/-- Element `i` of an array. -/
def PtrArray.elem (a : PtrArray) (m : Memory) (i : Nat) : List UInt8 := (span (offset a.v (4 * i)) 4).map m.cells

/-- `kmalloc` and `kfree` know their business: a new block has no byte of the elements of the array, making it
changes no element, and giving the old one back changes no byte of the new one. -/
structure Heap.Sound (heap : Heap) (a : PtrArray) (m : Memory) : Prop where
  fresh : ∀ size, (heap.kmalloc size m).1 ≠ 0 → ∀ x ∈ span (heap.kmalloc size m).1 size.toNat, x ∉ a.bytes
  keeps : ∀ size, ∀ x ∈ a.bytes, (heap.kmalloc size m).2.cells x = m.cells x
  frees : ∀ size m', ∀ x ∈ span (heap.kmalloc size m).1 size.toNat, (heap.kfree a.v m').cells x = m'.cells x

/-- What `array_setsize` promises: with 0 there is room for the elements in a block of that many bytes, and those
there were are the same; with `ENOMEM` nothing has changed. -/
structure Provides (a : PtrArray) (num : Word) (m : Memory) (o : Resized) : Prop where
  room : o.enomem = false → num ≤ o.array.max
  block : o.enomem = false → ∀ size, o.request = some size → o.array.max.toNat * 4 ≤ size.toNat
  same : o.enomem = false → ∀ i, i < a.num.toNat → i < num.toNat → o.array.elem o.memory i = a.elem m i
  refused : o.enomem = true → o.array = a ∧ ∀ i < a.num.toNat, a.elem o.memory i = a.elem m i

theorem elem_congr {m' : Memory} {b : PtrArray}
    (h : ∀ j, 4 * i ≤ j → j < 4 * i + 4 → m'.cells (offset b.v j) = m.cells (offset a.v j)) :
    b.elem m' i = a.elem m i := by
  simp only [PtrArray.elem, span, List.map_map]
  refine List.map_congr_left fun j hj => ?_
  have hlt := List.mem_range.mp hj
  simp only [Function.comp_apply, offset_offset]
  exact h _ (by omega) (by omega)

theorem mem_bytes {j : Nat} (hi : i < a.num.toNat) (hj : j < 4 * i + 4) : offset a.v j ∈ a.bytes :=
  mem_span.mpr ⟨j, by omega, rfl⟩

theorem Heap.Sound.copied (hs : heap.Sound a m) {newmax : Word} (hmax : newmax.toNat < 2 ^ 30)
    (hle : a.num.toNat ≤ newmax.toNat) (hptr : (heap.kmalloc (newmax * 4#32) m).1 ≠ 0)
    (hi : i < a.num.toNat) :
    PtrArray.elem ⟨(heap.kmalloc (newmax * 4#32) m).1, num, newmax⟩
      (heap.kfree a.v (memcpy (heap.kmalloc (newmax * 4#32) m).1 a.v (a.num * 4#32)
        (heap.kmalloc (newmax * 4#32) m).2)) i = a.elem m i := by
  have hmul {x : Word} (hx : x.toNat < 2 ^ 30) : (x * 4#32).toNat = x.toNat * 4 := by
    rw [BitVec.toNat_mul]
    exact Nat.mod_eq_of_lt (by simp; omega)
  have hsize := hmul hmax
  have hlen := hmul (x := a.num) (by omega)
  have hblock {j : Nat} (hj : j < 4 * a.num.toNat) :
      offset (heap.kmalloc (newmax * 4#32) m).1 j ∈
        span (heap.kmalloc (newmax * 4#32) m).1 (newmax * 4#32).toNat :=
    mem_span.mpr ⟨j, by omega, rfl⟩
  refine elem_congr fun j _ hj => ?_
  rw [hs.frees _ _ _ (hblock (by omega)), cells_memcpy]
  · rw [Flat.cells_move_offset (by omega) (by omega)]
    exact hs.keeps _ _ (mem_bytes hi hj)
  · intro j j' hjj hj' heq
    exact hs.fresh _ hptr _ (hblock (by omega)) (heq ▸ mem_span.mpr ⟨j', by omega, rfl⟩)

/-- An allocator with one block to give. -/
def oneBlock : Heap where
  kmalloc size m := (if size ≤ 4096#32 then 0x80002000#32 else 0#32, m)
  kfree _ m := m

/-- An array with one element, and room for one. -/
def oneElement : PtrArray := ⟨0x80001000#32, 1#32, 1#32⟩

theorem oneBlock_sound (m : Memory) : oneBlock.Sound oneElement m := by
  refine ⟨fun size hne x hx hbytes => ?_, fun _ _ _ => rfl, fun _ _ _ _ => rfl⟩
  have hsize : size ≤ 4096#32 := by
    by_contra hlt
    exact hne (if_neg hlt)
  have hptr : (oneBlock.kmalloc size m).1 = 0x80002000#32 := if_pos hsize
  rw [hptr] at hx
  obtain ⟨i, hi, rfl⟩ := mem_span.mp hx
  obtain ⟨j, hj, heq⟩ := mem_span.mp hbytes
  have hnat := congrArg BitVec.toNat heq
  rw [BitVec.le_def] at hsize
  simp only [oneElement, BitVec.toNat_ofNat] at hj hsize hnat
  rw [toNat_offset (by simp; omega), toNat_offset (by simp; omega)] at hnat
  simp only [BitVec.toNat_ofNat] at hnat
  omega

theorem doubleMax_powers (n : Nat) (hc : c = 0 ∨ ∃ k < 32, c.toNat = 2 ^ k) :
    doubleMax 0x80000001#32 n c = none := by
  induction n generalizing c with
  | zero => rfl
  | succ n ih =>
    rcases hc with rfl | ⟨k, hk, hpow⟩
    · exact ih (.inr ⟨2, by decide, rfl⟩)
    · have hle : 2 ^ k ≤ 2 ^ 31 := Nat.pow_le_pow_right (by decide) (Nat.le_of_lt_succ hk)
      have hne : c ≠ 0 := by
        rintro rfl
        exact absurd hpow.symm (Nat.two_pow_pos k).ne'
      have hlt : c < 0x80000001#32 := by
        rw [BitVec.lt_def, hpow]
        exact Nat.lt_succ_of_le hle
      have hdouble : (c * 2#32).toNat = 2 ^ (k + 1) % 2 ^ 32 := by
        rw [BitVec.toNat_mul, hpow]
        rfl
      rw [doubleMax_double hne hlt]
      by_cases hlast : k + 1 < 32
      · rw [Nat.mod_eq_of_lt (Nat.pow_lt_pow_right (by decide) hlast)] at hdouble
        exact ih (.inr ⟨k + 1, hlast, hdouble⟩)
      · obtain rfl : k = 31 := by omega
        exact ih (.inl (BitVec.eq_of_toNat_eq hdouble))

end Os161.Kern
