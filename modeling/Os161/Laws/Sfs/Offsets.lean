import Os161.Laws.Sfs.Mount

/-!
# Two ways to a block

`sfs_blockio` hands the device an offset of its own making, `sfs_rblock` and `sfs_wblock` the one of
`SFSUIO`. The first is a product in 32 bits and the second in 64, so that they name the same bytes of the
disk up to four gigabytes and no further. `mksfs` makes no volume of that size, but `sfs_domount` takes
one.
-/

namespace Os161.Sfs

open Os161.Lib Prog

variable {s : State} {size : Nat}

theorem sectorAt_sfsuioOffset (b : Blk) : sectorAt (sfsuioOffset b) = b := by
  rw [sectorAt, sfsuioOffset, Nat.mul_div_cancel _ (by decide), UInt32.ofNat_toNat]

theorem blockMove_eq (u : Uio) (b : Blk) :
    blockMove u b = (do
      .assert .blockResid (blockSize ≤ u.resid)
      match u.rw with
      | .read => blockRead u (sectorAt (blockioOffset b))
      | .write => blockWrite u (sectorAt (blockioOffset b))) := rfl

/-- Whole-block and single-block I/O agree on the block `b`: they compute the same offset, and on a
device that does not fail each reads what the other wrote. -/
structure PathsAgree (b : Blk) : Prop where
  offset : blockioOffset b = sfsuioOffset b
  written : ∀ s : State, s.faults = [] → b.toNat < s.dBlocks → ∀ u : Uio, u.rw = .write → u.Ok →
    blockSize ≤ u.resid →
      ((do let _ ← blockMove u b; sfsRblock b : P Block).run s).1 = .ok (splice zeros 0 (u.iov.take blockSize))
  read : ∀ s : State, s.faults = [] → b.toNat < s.dBlocks → ∀ u : Uio, u.rw = .read → u.Ok →
    blockSize ≤ u.resid → ∀ data : Block,
      ((do sfsWblock (fun _ => data) b; blockMove u b : P Uio).run s).1 = .ok (u.advance (slice data 0 blockSize))

theorem value_of_wp {α : Type} {x : P α} {a : α}
    (h : wp x (fun b _ => b = a) (fun _ _ => False) s) : (x.run s).1 = .ok a := by
  obtain ⟨_, _, hrun, rfl⟩ := h.returns
  rw [hrun]

section Slices

attribute [local irreducible] slice

/-- The two ways to a block agree exactly below four gigabytes. -/
theorem block_paths_agree_iff (b : Blk) : PathsAgree b ↔ b.toNat < 0x800000 := by
  constructor
  · intro h
    have hoff := h.offset
    simp only [blockioOffset, sfsuioOffset, blockSize] at hoff
    omega
  · intro hb
    have hoff : blockioOffset b = sfsuioOffset b := by
      simp only [blockioOffset, sfsuioOffset, blockSize]
      omega
    have hsector : sectorAt (blockioOffset b) = b := by rw [hoff, sectorAt_sfsuioOffset]
    refine ⟨hoff, ?_, ?_⟩
    · intro s hs hdev u hrw hok hresid
      refine value_of_wp ?_
      have hiov : blockSize ≤ u.iov.length := Nat.le_trans hresid hok
      simp only [blockMove_eq, hsector, hrw, wp_bind, wp_assert, hresid, decide_true, if_true, blockWrite]
      refine wp_uiomoveWindow_write hrw hiov (length_slice ..) ?_
      rw [wp_sfsWblock hs hdev]
      simp only [wp_pure]
      refine (wp_sfsRblock (b := b) (by exact hs) (by exact hdev)).mpr ?_
      exact Function.update_self _ _ _
    · intro s hs hdev u hrw hok hresid data
      refine value_of_wp ?_
      have hiov : blockSize ≤ u.iov.length := Nat.le_trans hresid hok
      simp only [wp_bind]
      rw [wp_sfsWblock hs hdev]
      simp only [blockMove_eq, hsector, hrw, wp_bind, wp_assert, hresid, decide_true, if_true, blockRead]
      refine (wp_sfsRblock (b := b) (by exact hs) (by exact hdev)).mpr ?_
      refine wp_uiomoveWindow_read hrw hiov (length_slice ..) ?_
      simp only [wp_pure, Function.update_self]

end Slices

theorem wp_domount_mkImage {volname : List UInt8} {disk : Blk → Block}
    (hdisk : s.disk = mkImage volname size disk) (hname : volname.length < volnameSize ∧ 0 ∉ volname)
    (hlarge : 3 ≤ size) (hsize : size < 0x100000000) (hs : s.faults = []) (hdev : size ≤ s.dBlocks) :
    wp sfsDomount (fun _ t => t.nblocks = UInt32.ofNat size) (fun _ _ => False) s := by
  have hn : (UInt32.ofNat size).toNat = size := UInt32.toNat_ofNat_of_lt' hsize
  have hsuper : s.disk sbLocation = superBlock (UInt32.ofNat size) volname := by rw [hdisk, mkImage_super]
  have hmap : ∀ j, j < bitblocks (UInt32.ofNat size).toNat →
      s.disk (UInt32.ofNat (mapLocation + j)) = mapBlock (fun b => b.toNat ∈ mkBits size) j := by
    intro j hj
    rw [hn] at hj
    rw [hdisk]
    exact mkImage_map hsize hj disk
  refine wp_domount_of hsuper hname hmap ?_ ?_ ?_ rfl
  · rw [hn]
    exact hlarge
  · rw [hs]
    exact .nil _
  · rw [hn]
    exact hdev

/-- A device of so many blocks, with a volume that takes up all of them. -/
def deviceOf (size : Nat) : State where
  dBlocks := size
  disk := mkImage [] size fun _ => zeros
  faults := []
  nblocks := 0
  volname := []
  freemap := fun _ => false
  freemapdirty := false
  superdirty := false
  vnodes := fun _ => none
  table := []
  next := 0
  bmapIdbuf := fun _ => 0
  truncIdbuf := fun _ => 0
  iobuf := zeros
  lhBusy := false

theorem domount_deviceOf (hlarge : 3 ≤ size) (hsize : size < 0x100000000) :
    ∃ t, sfsDomount.run (deviceOf size) = (.ok (), t) ∧ t.nblocks = UInt32.ofNat size := by
  have hdisk : (deviceOf size).disk = mkImage [] size fun _ => zeros := rfl
  have hmount := wp_domount_mkImage hdisk ⟨by decide, by decide⟩ hlarge hsize rfl (Nat.le_refl _)
  obtain ⟨_, t, hrun, ht⟩ := hmount.returns
  exact ⟨t, hrun, ht⟩

/-- The last block of a volume of `2^23 + 1` blocks has two places on the disk. -/
theorem last_block_elsewhere :
    ∃ t, sfsDomount.run (deviceOf 0x800001) = (.ok (), t) ∧ (0x800000 : Blk) < t.nblocks ∧
      blockioOffset 0x800000 = 0 ∧ sfsuioOffset 0x800000 = 0x100000000 ∧ ¬ PathsAgree 0x800000 := by
  obtain ⟨t, hrun, ht⟩ := domount_deviceOf (show 3 ≤ 0x800001 by decide) (by decide)
  refine ⟨t, hrun, ?_, by decide, by decide, fun h => absurd h.offset (by decide)⟩
  rw [ht]
  decide

end Os161.Sfs
