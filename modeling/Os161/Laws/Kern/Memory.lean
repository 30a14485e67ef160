import Os161.Kern.Memory

/-!
# What the memory functions do

`memcpy` touches the bytes it is told to, and `memmove` moves them as if they were all read before one is written.
Both hold whether bytes or words are copied.
-/

namespace Os161.Kern

open Os161.Lib

variable {dst src len : Word} {m : Memory}
variable {a : Word} {k n : Nat}

theorem len_of_wordAligned (h : wordAligned dst src len = true) : 4 * (len.toNat / 4) = len.toNat := by
  simp only [wordAligned, Bool.and_eq_true, beq_iff_eq] at h
  omega

/-! ## What is touched -/

theorem mem_reads_memcpy : a ∈ (memcpy dst src len m).reads ↔ a ∈ span src len.toNat ∨ a ∈ m.reads := by
  unfold memcpy
  split
  · rw [Flat.mem_reads_moveUp, len_of_wordAligned ‹_›]
  · rw [Flat.mem_reads_moveUp, Nat.one_mul]

theorem mem_writes_memcpy : a ∈ (memcpy dst src len m).writes ↔ a ∈ span dst len.toNat ∨ a ∈ m.writes := by
  unfold memcpy
  split
  · rw [Flat.mem_writes_moveUp, len_of_wordAligned ‹_›]
  · rw [Flat.mem_writes_moveUp, Nat.one_mul]

/-! ## What is moved -/

theorem cells_memcpy (h : ∀ i j, i < j → j < len.toNat → offset dst i ≠ offset src j) :
    (memcpy dst src len m).cells = (m.move len.toNat dst src).cells := by
  have hlen := len.isLt
  unfold memcpy
  split
  · rename_i hword
    have hmul := len_of_wordAligned hword
    rw [Flat.cells_moveUp (by omega) (by rwa [hmul]), hmul]
  · rw [Flat.cells_moveUp (by omega) (by rwa [Nat.one_mul]), Nat.one_mul]

theorem offset_ne_of_lt {b : Word} {i j : Nat} (hab : a < b) (hij : i < j) (hj : b.toNat + j < 2 ^ 32) :
    offset a i ≠ offset b j := by
  intro heq
  have hnat := congrArg BitVec.toNat heq
  rw [BitVec.lt_def] at hab
  rw [toNat_offset (by omega), toNat_offset hj] at hnat
  omega

theorem cells_moveUp_of_lt (hsrc : src.toNat + k * n ≤ 2 ^ 32) (hlt : dst < src) :
    (m.moveUp k n dst src).cells = (m.move (k * n) dst src).cells :=
  Flat.cells_moveUp (by omega) fun _ _ hij hj => offset_ne_of_lt hlt hij (by omega)

theorem cells_moveDown_of_le (hdst : dst.toNat + k * n ≤ 2 ^ 32) (hge : ¬ dst < src) :
    (m.moveDown k n dst src).cells = (m.move (k * n) dst src).cells := by
  refine Flat.cells_moveDown (by omega) fun i j hji hi heq => ?_
  have hnat := congrArg BitVec.toNat heq
  rw [BitVec.lt_def] at hge
  rw [toNat_offset (by omega), toNat_offset (by omega)] at hnat
  omega

theorem cells_memmove (hdst : dst.toNat + len.toNat ≤ 2 ^ 32) (hsrc : src.toNat + len.toNat ≤ 2 ^ 32) :
    (memmove dst src len m).cells = (m.move len.toNat dst src).cells := by
  unfold memmove
  by_cases hlt : dst < src
  · rw [if_pos hlt]
    exact cells_memcpy fun i j hij hj => offset_ne_of_lt hlt hij (by omega)
  · rw [if_neg hlt]
    split
    · rename_i hword
      have hmul := len_of_wordAligned hword
      rw [cells_moveDown_of_le (by rwa [hmul]) hlt, hmul]
    · rw [cells_moveDown_of_le (by rwa [Nat.one_mul]) hlt, Nat.one_mul]

/-- The bytes at `dst` are those that were at `src`, and the others are as they were. -/
def Snapshot (dst src len : Word) (m m' : Memory) : Prop :=
  (∀ i < len.toNat, m'.cells (offset dst i) = m.cells (offset src i)) ∧
    ∀ a, a ∉ span dst len.toNat → m'.cells a = m.cells a

theorem snapshot_of_cells {m' : Memory} (h : m'.cells = (m.move len.toNat dst src).cells) :
    Snapshot dst src len m m' := by
  have hlen := len.isLt
  unfold Snapshot
  rw [h]
  exact ⟨fun _ hi => Flat.cells_move_offset (by omega) hi, fun _ ha => Flat.cells_move_other (by omega) ha⟩

/-- `memmove` copies a snapshot, however the blocks overlap. So do the loops it chooses from, in pieces of any
length that divides the whole: upwards to a lower address, as `memcpy` goes, and downwards otherwise. -/
theorem memmove_copies_snapshot (dst src len : Word) (m : Memory) (hdst : dst.toNat + len.toNat ≤ 2 ^ 32)
    (hsrc : src.toNat + len.toNat ≤ 2 ^ 32) :
    Snapshot dst src len m (memmove dst src len m) ∧
      (dst < src → Snapshot dst src len m (memcpy dst src len m)) ∧
      ∀ k, k ∣ len.toNat →
        (dst < src → Snapshot dst src len m (m.moveUp k (len.toNat / k) dst src)) ∧
          (¬ dst < src → Snapshot dst src len m (m.moveDown k (len.toNat / k) dst src)) := by
  refine ⟨snapshot_of_cells (cells_memmove hdst hsrc), fun hlt => snapshot_of_cells ?_, fun k hk => ?_⟩
  · exact cells_memcpy fun i j hij hj => offset_ne_of_lt hlt hij (by omega)
  · have hmul := Nat.mul_div_cancel' hk
    refine ⟨fun hlt => snapshot_of_cells ?_, fun hge => snapshot_of_cells ?_⟩
    · rw [cells_moveUp_of_lt (by rwa [hmul]) hlt, hmul]
    · rw [cells_moveDown_of_le (by rwa [hmul]) hge, hmul]

/-- Memory in which each byte holds the end of its own address. -/
def numberedMemory : Memory := ⟨fun a => UInt8.ofBitVec (a.setWidth 8), [], []⟩

/-- Eight bytes, by words, four of which are overwritten by what was in front of them. -/
theorem overlapping_words_moved : (memmove 0x1004#32 0x1000#32 8#32 numberedMemory).cells 0x1008#32 = 4 ∧
      Snapshot 0x1004#32 0x1000#32 8#32 numberedMemory (memmove 0x1004#32 0x1000#32 8#32 numberedMemory) :=
  ⟨by decide, (memmove_copies_snapshot _ _ _ _ (by decide) (by decide)).1⟩

end Os161.Kern
