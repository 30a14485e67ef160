import Os161.Laws.Sfs.Sync

/-!
# Mounting

`sfs_domount` reads back what `sfs_sync` and `mksfs` write: the superblock and the free map. The volume that `mksfs`
makes is sound when it is mounted.
-/

namespace Os161.Sfs

open Os161.Lib Prog

variable {c : Core} {s : State} {E : Stop Errno Panic → State → Prop} {nblocks : Blk} {volname : List UInt8}
variable {n j size : Nat} {freemap : Blk → Bool} {Q : Unit → State → Prop} {disk disk' : Blk → Block}

/-! ## The superblock -/

theorem words_superBlock_zero : words (superBlock nblocks volname) 0 = sfsMagic := wordOf_byteOf sfsMagic

theorem words_superBlock_one : words (superBlock nblocks volname) 1 = nblocks := wordOf_byteOf nblocks

theorem takeWhile_volname (hlen : volname.length < volnameSize) (h0 : 0 ∉ volname) :
    (slice (superBlock nblocks volname) 8 (volnameSize - 1)).takeWhile (· ≠ 0) = volname := by
  have hslice : slice (superBlock nblocks volname) 8 (volnameSize - 1) =
      volname ++ List.replicate (volnameSize - 1 - volname.length) 0 := by
    apply List.ext_getElem
    · rw [length_slice, List.length_append, List.length_replicate]
      omega
    · intro i h₁ h₂
      rw [length_slice] at h₁
      have hlt : 8 + i < 512 := by
        simp only [volnameSize] at h₁
        omega
      have hi4 : ¬ 8 + i < 4 := by omega
      have hi8 : ¬ 8 + i < 8 := by omega
      simp only [slice, List.getElem_map, List.getElem_range, hlt, dite_true, superBlock, hi4, hi8, if_false,
        Nat.add_sub_cancel_left]
      by_cases hi : i < volname.length
      · rw [List.getElem_append_left hi, List.getD_eq_getElem?_getD, List.getElem?_eq_getElem hi, Option.getD_some]
      · rw [List.getElem_append_right (Nat.le_of_not_lt hi), List.getElem_replicate, List.getD_eq_getElem?_getD,
          List.getElem?_eq_none (Nat.le_of_not_lt hi), Option.getD_none]
  have hne : ∀ b ∈ volname, decide (b ≠ 0) = true := fun b hb => decide_eq_true fun hz => h0 (hz ▸ hb)
  have hzero : (List.replicate (volnameSize - 1 - volname.length) (0 : UInt8)).takeWhile (· ≠ 0) = [] := by
    cases volnameSize - 1 - volname.length with
    | zero => rfl
    | succ n => simp [List.replicate_succ]
  rw [hslice, List.takeWhile_append_of_pos hne, hzero, List.append_nil]

/-! ## The free map -/

theorem mapBit_mapByte (f : Nat → Bool) {i : Nat} (hi : i < 8) : mapBit (mapByte f) i = f i := by
  have hle : ∀ k, (f k).toNat ≤ 1 := fun k => Bool.toNat_le _
  have h0 := hle 0
  have h1 := hle 1
  have h2 := hle 2
  have h3 := hle 3
  have h4 := hle 4
  have h5 := hle 5
  have h6 := hle 6
  have h7 := hle 7
  have hbit : (mapByte f).toNat / 2 ^ i % 2 = (f i).toNat := by
    simp only [mapByte, UInt8.toNat_ofNat']
    obtain rfl | rfl | rfl | rfl | rfl | rfl | rfl | rfl :
        i = 0 ∨ i = 1 ∨ i = 2 ∨ i = 3 ∨ i = 4 ∨ i = 5 ∨ i = 6 ∨ i = 7 := by omega
    all_goals omega
  rw [mapBit, hbit]
  cases f i <;> rfl

theorem withMapBlock_mapBlock (freemap freemap' : Blk → Bool) (j : Nat) (b : Blk) :
    withMapBlock freemap' j (mapBlock freemap j) b =
      if b.toNat / blockBits = j then freemap b else freemap' b := by
  simp only [withMapBlock]
  split
  · rename_i hj
    have hpos : j * blockBits + b.toNat % blockBits / 8 * 8 + b.toNat % 8 = b.toNat := by
      simp only [blockBits] at *
      omega
    rw [mapBlock, mapBit_mapByte _ (Nat.mod_lt _ (by decide))]
    show freemap (UInt32.ofNat (j * blockBits + b.toNat % blockBits / 8 * 8 + b.toNat % 8)) = _
    rw [hpos, UInt32.ofNat_toNat]
  · rfl

/-- The free map with some of its blocks from another. -/
def mapFrom (freemap freemap' : Blk → Bool) (m n : Nat) : Blk → Bool := fun b =>
  if m ≤ b.toNat / blockBits ∧ b.toNat / blockBits < n then freemap b else freemap' b

theorem mapFrom_withMapBlock (freemap freemap' : Blk → Bool) {m : Nat} (hmn : m < n) :
    mapFrom freemap (withMapBlock freemap' m (mapBlock freemap m)) (m + 1) n = mapFrom freemap freemap' m n := by
  funext b
  simp only [mapFrom, withMapBlock_mapBlock]
  by_cases hm : b.toNat / blockBits = m
  · rw [if_neg (by omega), if_pos hm, if_pos (by omega)]
  · rw [if_neg hm]
    by_cases hin : m + 1 ≤ b.toNat / blockBits ∧ b.toNat / blockBits < n
    · rw [if_pos hin, if_pos (by omega)]
    · rw [if_neg hin, if_neg (by omega)]

/-- The next transfers of a device are done. -/
def AllDone (n : Nat) (faults : List Bool) : Prop := ∀ k, k < n → Done (faults.drop k)

theorem AllDone.nil (n : Nat) : AllDone n [] := by
  intro k _
  rw [List.drop_nil]
  decide

theorem AllDone.tail {faults : List Bool} (h : AllDone (n + 1) faults) : AllDone n faults.tail := by
  intro k hk
  rw [List.drop_tail]
  exact h (k + 1) (Nat.succ_lt_succ hk)

theorem wp_mapioRead (n : Nat) : ∀ {m : Nat} {s : State} {Q : Unit → State → Prop},
    AllDone n s.faults → s.lhBusy = false → mapLocation + (m + n) ≤ s.dBlocks →
    mapLocation + (m + n) < 0x100000000 →
    (∀ j, j < m + n → s.disk (UInt32.ofNat (mapLocation + j)) = mapBlock freemap j) →
    Q () { s with freemap := mapFrom freemap s.freemap m (m + n), faults := s.faults.drop n } →
    wp (mapioRead m n) Q E s := by
  induction n with
  | zero =>
    intro m s Q _ _ _ _ _ hQ
    have hself : mapFrom freemap s.freemap m (m + 0) = s.freemap := by
      funext b
      exact if_neg (by omega)
    rw [hself] at hQ
    exact hQ
  | succ n ih =>
    intro m s Q hdone hbusy hdev hlt hdisk hQ
    have hon : (UInt32.ofNat (mapLocation + m)).toNat < s.dBlocks := by
      rw [UInt32.toNat_ofNat_of_lt' (show mapLocation + m < UInt32.size by simp only [UInt32.size]; omega)]
      omega
    have hassoc : m + 1 + n = m + (n + 1) := by omega
    simp only [mapioRead, wp_bind]
    rw [wp_sfsRblock_done (hdone 0 (Nat.succ_pos n)) hon, hdisk m (by omega), wp_modify]
    refine ih hdone.tail rfl (by rw [hassoc]; exact hdev) (by rw [hassoc]; exact hlt)
      (fun j hj => hdisk j (by omega)) ?_
    rw [← mapFrom_withMapBlock freemap s.freemap (by omega), ← List.drop_tail, ← hassoc] at hQ
    rw [← hbusy]
    exact hQ

/-! ## `sfs_domount` -/

/-- A volume just mounted, with the free map it has. -/
def Core.mountedWith (c : Core) (nblocks : Blk) (volname : List UInt8) (freemap : Blk → Bool) : Core :=
  { c with
    nblocks := nblocks
    volname := volname
    vnodes := fun _ => none
    table := []
    freemap := fun b => if b.toNat / blockBits < bitblocks nblocks.toNat then freemap b else true
    superdirty := false
    freemapdirty := false }

/-- The disk has a volume on it. -/
structure Image (disk : Blk → Block) (nblocks : Blk) (volname : List UInt8) (freemap : Blk → Bool) : Prop where
  super : disk sbLocation = superBlock nblocks volname
  volname : volname.length < volnameSize ∧ 0 ∉ volname
  map : ∀ j, j < bitblocks nblocks.toNat → disk (UInt32.ofNat (mapLocation + j)) = mapBlock freemap j
  large : 3 ≤ nblocks.toNat
  small : nblocks.toNat ≤ 131072

theorem wp_domount_of (hsuper : s.disk sbLocation = superBlock nblocks volname)
    (hname : volname.length < volnameSize ∧ 0 ∉ volname)
    (hmap : ∀ j, j < bitblocks nblocks.toNat → s.disk (UInt32.ofNat (mapLocation + j)) = mapBlock freemap j)
    (hlarge : 3 ≤ nblocks.toNat) (hdone : AllDone (bitblocks nblocks.toNat + 1) s.faults)
    (hdev : nblocks.toNat ≤ s.dBlocks)
    (hQ : Q () { s with
      toCore := { s.toCore.mountedWith nblocks volname freemap with
        faults := s.faults.drop (bitblocks nblocks.toNat + 1) }
      lhBusy := false }) : wp sfsDomount Q E s := by
  have hlt := nblocks.toNat_lt
  have hbits : mapLocation + bitblocks nblocks.toNat ≤ nblocks.toNat := by
    simp only [mapLocation, bitblocks, blockBits]
    omega
  have hon : sbLocation.toNat < s.dBlocks := Nat.lt_of_lt_of_le (Nat.lt_of_lt_of_le (by decide) hlarge) hdev
  have hfree : mapFrom freemap (fun b => decide (bitblocks nblocks.toNat * blockBits ≤ b.toNat)) 0
      (0 + bitblocks nblocks.toNat) = (s.toCore.mountedWith nblocks volname freemap).freemap := by
    funext b
    simp only [mapFrom, Nat.zero_le, true_and, Nat.zero_add, Core.mountedWith]
    split
    · rfl
    · refine decide_eq_true ?_
      simp only [blockBits] at *
      omega
  simp only [sfsDomount, wp_bind]
  rw [wp_sfsRblock_done (hdone 0 (Nat.succ_pos _)) hon, hsuper]
  simp only [words_superBlock_zero, ne_eq, not_true_eq_false, if_false, mountWith, words_superBlock_one,
    takeWhile_volname hname.1 hname.2, wp_bind, wp_modify]
  have hread : ∀ j, j < 0 + bitblocks nblocks.toNat →
      s.disk (UInt32.ofNat (mapLocation + j)) = mapBlock freemap j := by
    rw [Nat.zero_add]
    exact hmap
  refine wp_mapioRead _ hdone.tail rfl (by rw [Nat.zero_add]; exact Nat.le_trans hbits hdev) (by omega) hread ?_
  rw [hfree, List.drop_tail]
  exact hQ

theorem wp_domount (h : Image s.disk nblocks volname freemap)
    (hdone : AllDone (bitblocks nblocks.toNat + 1) s.faults) (hdev : nblocks.toNat ≤ s.dBlocks)
    (hQ : Q () { s with
      toCore := { s.toCore.mountedWith nblocks volname freemap with
        faults := s.faults.drop (bitblocks nblocks.toNat + 1) }
      lhBusy := false }) : wp sfsDomount Q E s :=
  wp_domount_of h.super h.volname h.map h.large hdone hdev hQ

theorem mapBlock_mountedWith (c : Core) (nblocks : Blk) (volname : List UInt8) (freemap : Blk → Bool)
    (hj : j < bitblocks nblocks.toNat) (hlt : (j + 1) * blockBits ≤ 0x100000000) :
    mapBlock (c.mountedWith nblocks volname freemap).freemap j = mapBlock freemap j := by
  funext k
  simp only [mapBlock]
  have hbit : ∀ i, i < 8 →
      (c.mountedWith nblocks volname freemap).freemap (UInt32.ofNat (j * blockBits + k * 8 + i)) =
        freemap (UInt32.ofNat (j * blockBits + k * 8 + i)) := by
    intro i hi
    have hk := k.isLt
    refine if_pos ?_
    rw [UInt32.toNat_ofNat_of_lt' (show _ < UInt32.size by simp only [UInt32.size, blockBits] at *; omega)]
    simp only [blockBits] at *
    omega
  simp only [mapByte, hbit, Nat.reduceLT]

theorem Image.onDisk (h : Image c.disk nblocks volname freemap) :
    OnDisk (c.mountedWith nblocks volname freemap) := by
  refine ⟨fun p v hp => (nomatch hp), fun _ j hj => ?_, ⟨rfl, h.super⟩, h.volname⟩
  have hsmall := h.small
  have hlt : (j + 1) * blockBits ≤ 0x100000000 := by
    have hj : j < bitblocks nblocks.toNat := hj
    simp only [bitblocks, blockBits] at *
    omega
  rw [mapBlock_mountedWith c nblocks volname freemap hj hlt]
  exact h.map j hj

/-! ## A new volume -/

theorem mem_mkBits : n ∈ mkBits size ↔ n = 0 ∨ n = 1 ∨
    mapLocation ≤ n ∧ n < mapLocation + bitblocks size ∨ size ≤ n ∧ n < bitblocks size * blockBits := by
  have hmap : (∃ a, a < bitblocks size ∧ mapLocation + a = n) ↔ mapLocation ≤ n ∧ n < mapLocation + bitblocks size := by
    constructor
    · rintro ⟨a, ha, rfl⟩
      omega
    · rintro ⟨hle, hlt⟩
      exact ⟨n - mapLocation, by omega, by omega⟩
  have hend : size ≤ bitblocks size * blockBits := by
    simp only [bitblocks, blockBits]
    omega
  simp only [mkBits, List.mem_append, List.mem_cons, List.not_mem_nil, or_false, List.mem_map, List.mem_range, hmap,
    List.mem_range'_1, or_assoc]
  rw [Nat.add_sub_cancel' hend]

theorem nodup_mkBits (hlarge : 3 ≤ size) : (mkBits size).Nodup := by
  have hfit : mapLocation + bitblocks size ≤ size := by
    simp only [mapLocation, bitblocks, blockBits]
    omega
  simp only [mkBits, List.nodup_append, List.mem_append, List.mem_map, List.mem_range, List.mem_range'_1]
  refine ⟨⟨by decide, List.nodup_range.map fun _ _ h => Nat.add_left_cancel h, ?_⟩, List.nodup_range', ?_⟩
  · rintro a ha b ⟨c, -, rfl⟩ heq
    simp only [List.mem_cons, List.not_mem_nil, or_false, mapLocation] at *
    omega
  · rintro a (ha | ⟨c, hc, rfl⟩) b hb heq
    · simp only [List.mem_cons, List.not_mem_nil, or_false] at ha
      omega
    · omega

theorem mksfs_eq (hlarge : 3 ≤ size) (hsmall : size ≤ 131072) (hlen : volname.length < volnameSize)
    (hcolon : 58 ∉ volname) (hslash : 47 ∉ volname) (disk : Blk → Block) :
    mksfs volname size disk = some (mkImage volname size disk) := by
  have hbits : ¬ 32 < bitblocks size := by
    simp only [bitblocks, blockBits]
    omega
  simp [mksfs, Nat.not_le.mpr hlen, hcolon, hslash, hbits, nodup_mkBits hlarge]

theorem mksfs_small (h : mksfs volname size disk = some disk') :
    size ≤ 131072 := by
  simp only [mksfs] at h
  split at h
  · cases h
  · rename_i hargs
    have hbits : ¬ 32 < bitblocks size := fun hlt => hargs (.inr (.inr (.inr (.inl hlt))))
    simp only [bitblocks, blockBits] at hbits
    omega

theorem writeFrom_low {b : Blk} (hb : b.toNat < mapLocation) (disk : Blk → Block) (n : Nat) (data : Nat → Block) :
    writeFrom disk mapLocation n data b = disk b :=
  if_neg fun hin => absurd hin.1 (Nat.not_le.mpr hb)

theorem mkImage_super (size : Nat) (disk : Blk → Block) :
    mkImage volname size disk sbLocation = superBlock (UInt32.ofNat size) volname := by
  rw [mkImage, writeFrom_low (by decide), Function.update_of_ne (by decide), Function.update_self]

theorem mkImage_map (hsize : size < 0x100000000) (hj : j < bitblocks size) (disk : Blk → Block) :
    mkImage volname size disk (UInt32.ofNat (mapLocation + j)) = mapBlock (fun b => b.toNat ∈ mkBits size) j := by
  have hmap : (UInt32.ofNat (mapLocation + j)).toNat = mapLocation + j := by
    apply UInt32.toNat_ofNat_of_lt'
    simp only [bitblocks, blockBits, mapLocation, UInt32.size] at *
    omega
  rw [mkImage, writeFrom, hmap, if_pos ⟨Nat.le_add_right _ _, Nat.add_lt_add_left hj _⟩, Nat.add_sub_cancel_left]

theorem mksfs_image (h : mksfs volname size disk = some disk')
    (h0 : 0 ∉ volname) (hlarge : 3 ≤ size) (hsmall : size ≤ 131072) :
    Image disk' (UInt32.ofNat size) volname (fun b => b.toNat ∈ mkBits size) ∧
      Inode.ofBlock (disk' rootLocation) = rootInode := by
  have hsize : (UInt32.ofNat size).toNat = size :=
    UInt32.toNat_ofNat_of_lt' (show size < UInt32.size by simp only [UInt32.size]; omega)
  simp only [mksfs] at h
  split at h
  · cases h
  · rename_i hargs
    cases h
    refine ⟨⟨mkImage_super size disk, ⟨Nat.not_le.mp fun hle => hargs (.inl hle), h0⟩, fun j hj => ?_,
      by rwa [hsize], by rwa [hsize]⟩, ?_⟩
    · rw [hsize] at hj
      exact mkImage_map (by omega) hj disk
    · rw [mkImage, writeFrom_low (by decide), Function.update_self, Inode.ofBlock_toBlock]

theorem live_mounted (hnone : ∀ p, c.vnodes p = none) (hroot : Inode.ofBlock (c.disk rootLocation) = rootInode) :
    c.inode rootLocation = rootInode ∧ c.slots = [] ∧ ∀ i, c.Live i ↔ i = rootLocation := by
  have hfile : ∀ p v, c.vnodes p = some v → v.ino ≠ rootLocation := by
    intro p v hp
    rw [hnone p] at hp
    cases hp
  have hinode : c.inode rootLocation = rootInode := (Core.inode_disk hfile).trans hroot
  have hslots : c.slots = [] := by
    rw [Core.slots, hinode]
    rfl
  refine ⟨hinode, hslots, fun i => ⟨?_, .inl⟩⟩
  rintro (hi | ⟨d, hd, -⟩ | ⟨p, v, hp, -⟩)
  · exact hi
  · rw [Core.entries, hslots] at hd
    cases hd
  · rw [hnone p] at hp
    cases hp

theorem Sound.fresh (hfits : Fits c) (hnone : ∀ p, c.vnodes p = none) (htable : c.table = [])
    (hroot : Inode.ofBlock (c.disk rootLocation) = rootInode)
    (hmap : ∀ b, c.freemap b = true ↔ c.Reserved b ∨ b = rootLocation) (hdisk : OnDisk c) : Sound noLeak settled c := by
  obtain ⟨hinode, hslots, hlive⟩ := live_mounted hnone hroot
  -- the one claim of the one file is on its inode
  have hheld : ∀ k, c.held k ≠ 0 → k = (rootLocation, none) := by
    rintro ⟨i, r⟩ hk
    by_cases hi : c.Live i
    · obtain rfl := (hlive i).mp hi
      cases r with
      | none => rfl
      | some r =>
        rw [Core.held_place hi, hinode] at hk
        cases r <;> exact absurd rfl hk
    · cases r <;> exact absurd (if_neg hi) hk
  have hone : c.held (rootLocation, none) = rootLocation := Core.held_live Core.live_root
  have hlarge := hfits.large
  have hnone' : ∀ {p v} {motive : Prop}, c.vnodes p = some v → motive := by
    intro p v _ hp
    rw [hnone p] at hp
    cases hp
  have hledger : Ledger 0 (c.Taken noLeak) c.freemap c.held := by
    rw [Core.taken_noLeak]
    refine ⟨.inl rfl, fun b hb => (hmap b).mpr (.inl hb), fun k hk => ?_, fun k hk => ?_, fun k k' hk heq => ?_,
      fun b hb => ?_⟩
    · rw [hheld k hk, hone]
      exact (hmap _).mpr (.inr rfl)
    · rw [hheld k hk, hone]
      rintro (h0 | ⟨h2, -⟩ | hend)
      · cases h0
      · exact absurd h2 (by decide)
      · have := UInt32.le_iff_toNat_le.mp hend
        exact absurd (Nat.le_trans hlarge this) (by decide)
    · rw [hheld k hk, hheld k' (heq ▸ hk)]
    · exact ((hmap b).mp hb).imp_right fun hb => ⟨_, hone.trans hb.symm⟩
  refine ⟨hfits, ⟨fun p => by rw [htable, hnone p]; simp, by rw [htable]; exact List.nodup_nil, fun p _ => hnone p,
    fun _ _ _ _ hp => hnone' hp, fun _ _ hp => hnone' hp, fun _ _ hp => hnone' hp, fun _ _ hp => hnone' hp⟩,
    hledger, ?_, fun i hi hne => absurd ((hlive i).mp hi) hne, fun i hi => ?_, hdisk⟩
  · rw [hinode, hslots]
    exact ⟨rfl, rfl, Nat.zero_le _, List.nodup_nil⟩
  · obtain rfl := (hlive i).mp hi
    rw [hinode, Core.entries, hslots]
    rfl

/-- Nobody has a reference to a vnode. -/
def nobody : Callers := ⟨fun _ => 0, fun _ => 0, fun _ => 0⟩

theorem wp_domount_fresh (h : mksfs volname size disk = some s.disk)
    (h0 : 0 ∉ volname) (hlarge : 3 ≤ size) (hsmall : size ≤ 131072) (hfaults : s.faults = []) (hdev : size ≤ s.dBlocks)
    : wp sfsDomount (fun _ t => Volume noLeak settled nobody t.toCore ∧ (∀ p, t.vnodes p = none) ∧ t.slots = []) E s := by
  obtain ⟨himage, hroot⟩ := mksfs_image h h0 hlarge hsmall
  have hsize : (UInt32.ofNat size).toNat = size :=
    UInt32.toNat_ofNat_of_lt' (show size < UInt32.size by simp only [UInt32.size]; omega)
  refine wp_domount himage (by rw [hfaults]; exact .nil _) (by rwa [hsize]) ?_
  rw [hfaults, List.drop_nil, ← hfaults]
  refine ⟨⟨.fresh ⟨hfaults, ?_, himage.large, himage.small⟩ (fun _ => rfl) rfl hroot (fun b => ?_) himage.onDisk,
    ⟨fun _ _ hp => (nomatch hp), fun _ => Nat.le_refl 0, fun _ _ hp => (nomatch hp), fun _ _ => rfl,
      fun _ _ hp => (nomatch hp)⟩⟩, fun _ => rfl, ?_⟩
  · exact (show (UInt32.ofNat size).toNat ≤ s.dBlocks by rwa [hsize])
  · have hle : UInt32.ofNat size ≤ b ↔ size ≤ b.toNat := by rw [UInt32.le_iff_toNat_le, hsize]
    have hb0 : b = 0 ↔ b.toNat = 0 := by rw [← UInt32.toNat_inj]; rfl
    have hb1 : b = rootLocation ↔ b.toNat = 1 := by rw [← UInt32.toNat_inj]; rfl
    simp only [Core.mountedWith, Core.Reserved, hsize, hle, hb0, hb1]
    have hend : size ≤ bitblocks size * blockBits := by
      simp only [bitblocks, blockBits]
      omega
    split
    · rename_i hin
      rw [decide_eq_true_iff, mem_mkBits]
      simp only [blockBits, mapLocation] at *
      omega
    · rename_i hout
      simp only [blockBits] at *
      simp only [true_iff]
      omega
  · have hmounted := live_mounted (c := { s.toCore.mountedWith (UInt32.ofNat size) volname
      (fun b => b.toNat ∈ mkBits size) with faults := s.faults }) (fun _ => rfl) hroot
    exact hmounted.2.1

end Os161.Sfs
