import Os161.Laws.Sfs.Bmap

/-!
# A volume with one file

Runs are shown on a volume of 16 blocks: the superblock, the root, the free map and the inode of the file are blocks 0
to 3, and the blocks of the file come next. The device does not fail.
-/

namespace Os161.Sfs

open Os161.Lib

/-- The vnode of the file. -/
def sampleVnode (inode : Inode) : Vnode where
  refcount := 1
  opencount := 1
  ops := .file
  ino := 3
  inode := inode
  dirty := false

/-- The volume, of which the first `used` blocks are taken. The file is at `0`. -/
def oneFile (used : Nat) (inode : Inode) (disk : Blk → Block) : State where
  dBlocks := 16
  disk := disk
  faults := []
  nblocks := 16
  volname := []
  freemap b := decide (b.toNat < used) || decide (16 ≤ b.toNat)
  freemapdirty := false
  superdirty := false
  vnodes q := if q = 0 then some (sampleVnode inode) else none
  table := [0]
  next := 1
  bmapIdbuf _ := 0
  truncIdbuf _ := 0
  iobuf := zeros
  lhBusy := false

/-- The blocks that are not of the file. -/
def sampleOthers (b : Blk) : Prop := b.toNat < 4 ∨ 16 ≤ b.toNat

theorem oneFile_vnode (used : Nat) (inode : Inode) (disk : Blk → Block) :
    (oneFile used inode disk).vnodes 0 = some (sampleVnode inode) := rfl

theorem oneFile_working (used : Nat) (inode : Inode) (disk : Blk → Block) :
    Working sampleOthers (oneFile used inode disk).toCore :=
  ⟨rfl, Nat.le_refl 16, by show 16 ≤ 131072; omega, fun _ h => .inr (UInt32.le_iff_toNat_le.mp h)⟩

/-- The file has the block 4 at the first of the places, and so on, and none at others. -/
def BlocksAt (places : List Place) (inode : Inode) (disk : Blk → Block) : Prop :=
  ∀ r, inode.blockAt disk r = if r ∈ places then UInt32.ofNat (4 + places.idxOf r) else 0

theorem BlocksAt.ok {places : List Place} {inode : Inode} {disk : Blk → Block} (h : BlocksAt places inode disk)
    (hlen : places.length ≤ 12) (hnodup : places.Nodup) :
    FileOk sampleOthers ((oneFile (4 + places.length) inode disk).file (sampleVnode inode)) := by
  have hmark : ∀ b : Blk, (oneFile (4 + places.length) inode disk).freemap b = true ↔
      b.toNat < 4 + places.length ∨ 16 ≤ b.toNat := by
    intro b
    simp only [oneFile, Bool.or_eq_true, decide_eq_true_eq]
  have hmem : ∀ r, inode.blockAt disk r ≠ 0 → r ∈ places := by
    intro r h0
    by_contra hr
    rw [h r, if_neg hr] at h0
    exact h0 rfl
  have htoNat : ∀ r, r ∈ places → (inode.blockAt disk r).toNat = 4 + places.idxOf r := by
    intro r hr
    have := List.idxOf_lt_length_of_mem hr
    rw [h r, if_pos hr, UInt32.toNat_ofNat', Nat.mod_eq_of_lt (by omega)]
  have hrange : ∀ r, inode.blockAt disk r ≠ 0 →
      4 ≤ (inode.blockAt disk r).toNat ∧ (inode.blockAt disk r).toNat < 4 + places.length := by
    intro r h0
    have := List.idxOf_lt_length_of_mem (hmem r h0)
    rw [htoNat r (hmem r h0)]
    omega
  refine ⟨.inl (by decide), fun b hb => (hmark b).mpr ?_, fun r h0 => (hmark _).mpr (.inl (hrange r h0).2),
    fun r h0 hb => ?_, fun q r h0 heq => ?_, fun b hb => ?_⟩
  · exact hb.imp (fun hb => by omega) id
  · have := hrange r h0
    rcases hb with hb | hb
    · exact absurd hb (Nat.not_lt.mpr this.1)
    · exact absurd hb (Nat.not_le.mpr (Nat.lt_of_lt_of_le this.2 (by omega)))
  · -- two places with one block have one index
    have heq : inode.blockAt disk q = inode.blockAt disk r := heq
    have hq := htoNat q (hmem q h0)
    have hr := htoNat r (hmem r (heq ▸ h0))
    rw [heq] at hq
    exact (List.idxOf_inj (hmem q h0)).mp (by omega)
  · rcases (hmark b).mp hb with hlt | hbig
    · by_cases h4 : b.toNat < 4
      · exact .inl (.inl h4)
      · have hi : b.toNat - 4 < places.length := by omega
        refine .inr ⟨places[b.toNat - 4], ?_⟩
        show inode.blockAt disk _ = b
        rw [h, if_pos (List.getElem_mem hi), hnodup.idxOf_getElem, Nat.add_sub_cancel' (by omega), UInt32.ofNat_toNat]
    · exact .inl (.inr hbig)

/-! ## A file of one block, and a file with an indirect block -/

/-- The inode of a file of so many bytes in block 4. -/
def oneBlock (size : UInt32) : Inode where
  size := size
  type := typeFile
  linkcount := 1
  direct k := if k = 0 then 4 else 0
  indirect := 0
  waste _ := 0

theorem oneBlock_blocksAt (size : UInt32) (disk : Blk → Block) : BlocksAt [.direct 0] (oneBlock size) disk := by
  intro r
  cases r with
  | direct k =>
    by_cases hk : k = 0
    · subst hk
      rfl
    · simp [Inode.blockAt, oneBlock, hk]
  | indirect => rfl
  | entry j => simp [Inode.blockAt, oneBlock]

/-- The inode of a file of so many bytes whose indirect block is block 4. -/
def oneIndirect (size : UInt32) : Inode where
  size := size
  type := typeFile
  linkcount := 1
  direct _ := 0
  indirect := 4
  waste _ := 0

/-- A disk with an indirect block that has the block 5 as its first entry. -/
def indirectDisk : Blk → Block :=
  Function.update (fun _ => zeros) 4 (ofWords fun j => if j = 0 then 5 else 0)

theorem oneIndirect_blocksAt (size : UInt32) : BlocksAt [.indirect, .entry 0] (oneIndirect size) indirectDisk := by
  intro r
  cases r with
  | direct k => rfl
  | indirect => rfl
  | entry j =>
    have hat : (oneIndirect size).blockAt indirectDisk (.entry j) = if j = 0 then 5 else 0 := by
      show (if (4 : Blk) = 0 then 0 else words (indirectDisk 4) j) = _
      rw [if_neg (by decide), indirectDisk, Function.update_self, words_ofWords]
    rw [hat]
    by_cases hj : j = 0
    · subst hj
      rfl
    · simp [hj]

end Os161.Sfs
