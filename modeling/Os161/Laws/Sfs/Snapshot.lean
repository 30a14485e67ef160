import Os161.Laws.Sfs.Runs

/-!
# What `sfs_sync` leaves on the disk

On a device that does not fail, the disk has the whole volume after `sfs_sync`: mounted afresh, it is the volume that was
in memory. When a write fails, `sfs_wblock` tries it again with a `uio` that has nothing left to transfer, and returns 0.
-/

namespace Os161.Sfs

open Os161.Lib Prog

variable {c : Core} {s : State} {volname : CStr} {size : Nat} {owed : Blk → Int} {leaked : Blk → Prop}

/-- The free map, the directory, and the files with a name are the same. -/
structure SameVolume (c c' : Core) : Prop where
  freemap : c'.freemap = c.freemap
  slots : c'.slots = c.slots
  inode : ∀ i, (∃ d ∈ c.entries, d.ino = i) → c'.inode i = c.inode i
  blocks : ∀ i, (∃ d ∈ c.entries, d.ino = i) → (c'.inode i).blockAt c'.disk = (c.inode i).blockAt c.disk
  bytes : ∀ i, (∃ d ∈ c.entries, d.ino = i) → (c'.inode i).byteAt c'.disk = (c.inode i).byteAt c.disk

theorem Sound.inode_clean (h : Sound leaked owed c) (hclean : ∀ p v, c.vnodes p = some v → v.dirty = false) (i : Blk) :
    Inode.ofBlock (c.disk i) = c.inode i := by
  by_cases hloaded : ∃ p v, c.vnodes p = some v ∧ v.ino = i
  · obtain ⟨p, v, hp, rfl⟩ := hloaded
    rw [h.pool.inode_eq hp]
    exact h.onDisk.inodes p v hp (hclean p v hp)
  · exact (Core.inode_disk fun p v hp hino => hloaded ⟨p, v, hp, hino⟩).symm

theorem Sound.image (h : Sound leaked owed c) (hmap : c.freemapdirty = false) :
    Image c.disk c.nblocks c.volname c.freemap :=
  ⟨h.onDisk.super.2, h.onDisk.volname, h.onDisk.map hmap, h.fits.large, h.fits.small⟩

theorem Sound.mounted (h : Sound leaked owed c) (hclean : ∀ p v, c.vnodes p = some v → v.dirty = false) {c' : Core}
    (hdisk : c'.disk = c.disk) {faults : List Bool} :
    SameVolume c { c'.mountedWith c.nblocks c.volname c.freemap with faults := faults } := by
  have hinode : ∀ i, Core.inode { c'.mountedWith c.nblocks c.volname c.freemap with faults := faults } i = c.inode i := by
    intro i
    rw [← h.inode_clean hclean i, ← hdisk]
    rfl
  refine ⟨?_, ?_, fun i _ => hinode i, fun i _ => ?_, fun i _ => ?_⟩
  · funext b
    simp only [Core.mountedWith]
    split
    · rfl
    · rename_i hout
      -- there are no bits past the end
      refine (h.ledger.others_marked b (.inl (.inr (.inr ?_)))).symm
      rw [UInt32.le_iff_toNat_le]
      simp only [bitblocks, blockBits] at hout
      omega
  · rw [Core.slots, hinode, Core.slots, ← hdisk]
    rfl
  · rw [hinode, ← hdisk]
    rfl
  · rw [hinode, ← hdisk]
    rfl

/-- On a device that does not fail, `sfs_sync` returns 0 and leaves the volume on the disk. -/
theorem sync_snapshot (hlarge : 3 ≤ size) (hsmall : size ≤ 131072) (h : Reached volname size [] s) :
    ∃ t, sfsSync.run s = (.ok (), t) ∧
      ∀ s' : State, s'.disk = t.disk → s'.faults = [] → t.dBlocks ≤ s'.dBlocks →
        ∃ m, sfsDomount.run s' = (.ok (), m) ∧ SameVolume t.toCore m.toCore := by
  obtain ⟨_, t, hrun, hvol, hclean, hmap⟩ := (wp_sync (E := fun _ _ => False) (Q := fun _ t =>
    Volume noLeak settled nobody t.toCore ∧ (∀ p v, t.vnodes p = some v → v.dirty = false) ∧ t.freemapdirty = false)
    (h.volume hlarge hsmall) fun _ hvol hclean hmap _ => ⟨hvol, hclean, hmap⟩).returns
  refine ⟨t, hrun, fun s' hdisk hfaults hdev => ?_⟩
  have himage : Image s'.disk t.nblocks t.volname t.freemap := by
    rw [hdisk]
    exact hvol.sound.image hmap
  have hdone : AllDone (bitblocks t.nblocks.toNat + 1) s'.faults := by
    rw [hfaults]
    exact .nil _
  exact ⟨_, run_of_wp (wp_domount himage hdone (Nat.le_trans hvol.sound.fits.device hdev) ⟨rfl, rfl⟩),
    hvol.sound.mounted hclean hdisk⟩

theorem namedVolume_snapshot : ∃ t, sfsSync.run (namedVolume []) = (.ok (), t) ∧
    ∃ m, sfsDomount.run { newDevice [] with disk := t.disk } = (.ok (), m) ∧ SameVolume t.toCore m.toCore := by
  obtain ⟨t, hrun, hmount⟩ := sync_snapshot (by decide) (by decide) reached_namedVolume
  have hdev : t.dBlocks = 16 := by
    rw [show t = (sfsSync.run (namedVolume [])).2 from by rw [hrun]]
    decide +kernel
  exact ⟨t, hrun, hmount { newDevice [] with disk := t.disk } rfl rfl (by rw [hdev]; exact Nat.le_refl 16)⟩

/-- Nine transfers, of which the last fails: it is the write of the root inode by `sfs_sync`. -/
def lostWrite : List Bool := List.replicate 8 false ++ [true]

/-- `sfs_sync` returns 0 although the write of the root inode has failed, and the disk has no file. -/
theorem sync_loses_root : ∃ s t m, Reached ⟨[], by decide⟩ 16 lostWrite s ∧ sfsSync.run s = (.ok (), t) ∧
    sfsDomount.run { newDevice [] with disk := t.disk } = (.ok (), m) ∧ t.slots.length = 1 ∧ m.slots.length = 0 := by
  have hnew : Reached ⟨[], by decide⟩ 16 lostWrite (newVolume (lostWrite.drop 2)) :=
    reached_newVolume (by unfold AllDone; decide)
  have hopened : Reached ⟨[], by decide⟩ 16 lostWrite (openedVolume (lostWrite.drop 2)) :=
    hnew.ok (by decide +kernel) (by decide +kernel)
  have hnamed : Reached ⟨[], by decide⟩ 16 lostWrite (namedVolume (lostWrite.drop 2)) :=
    hopened.ok (by decide +kernel) (by decide +kernel)
  exact ⟨_, _, _, hnamed, run_eq_ok (by decide +kernel), run_eq_ok (by decide +kernel), by decide +kernel,
    by decide +kernel⟩

end Os161.Sfs
