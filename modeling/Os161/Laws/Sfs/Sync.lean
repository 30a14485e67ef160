import Os161.Laws.Sfs.Ops

/-!
# `sfs_sync`

After `sfs_sync` nothing is dirty: each vnode is on the disk as it is in memory, and so is the free map. The volume is
sound all the way, as the blocks that are written are those of inodes and of the map.
-/

namespace Os161.Sfs

open Os161.Lib Prog

variable {c c' : Core} {p q : Ptr} {v w : Vnode} {g : Callers} {owed : Blk → Int} {leaked : Blk → Prop} {s : State}
  {E : Stop Errno Panic → State → Prop}

/-! ## The vnodes -/

/-- The first `m` vnodes of the table are on the disk. -/
def CleanTo (c : Core) (m : Nat) : Prop :=
  ∀ i, i < m → ∀ p, c.table[i]? = some p → ∀ v, c.vnodes p = some v → v.dirty = false

theorem wp_syncVnodes (n : Nat) : ∀ {m : Nat} {s : State} {Q : Unit → State → Prop}, m + n = s.table.length →
    Volume leaked owed g s.toCore → CleanTo s.toCore m →
    (∀ t, Volume leaked owed g t.toCore → CleanTo t.toCore t.table.length → t.slots = s.slots → Q () t) →
    wp (syncVnodes (List.range' m n)) Q E s := by
  induction n with
  | zero =>
    intro m s Q hm h hclean hQ
    rw [Nat.add_zero] at hm
    subst hm
    exact hQ s h hclean rfl
  | succ n ih =>
    intro m s Q hm h hclean hQ
    have hlt : m < s.table.length := by omega
    have hget : s.table[m]? = some s.table[m] := List.getElem?_eq_getElem hlt
    obtain ⟨v, hv⟩ := Option.isSome_iff_exists.mp ((h.sound.pool.mem _).mp (List.getElem_mem hlt))
    simp only [List.range'_succ, syncVnodes, wp_bind, wp_read, hget, wp_attempt, vopFsync]
    refine wp_syncInode h hv fun t hvol hslots hp hother htable => ?_
    refine ih (by rw [htable]; omega) hvol ?_ fun t' hvol' hclean' hslots' => hQ t' hvol' hclean' (hslots'.trans hslots)
    intro i hi q hq w hw
    rw [htable] at hq
    by_cases hqp : q = s.table[m]
    · subst hqp
      cases hp.symm.trans hw
      rfl
    · rw [hother q hqp] at hw
      have him : i ≠ m := by
        rintro rfl
        rw [hget] at hq
        exact hqp (Option.some.inj hq).symm
      exact hclean i (by omega) q hq w hw

/-! ## The free map -/

/-- The disk with the first `n` blocks of the free map written. -/
def withMap (disk : Blk → Block) (freemap : Blk → Bool) (n : Nat) : Blk → Block := fun b =>
  if mapLocation ≤ b.toNat ∧ b.toNat < mapLocation + n then mapBlock freemap (b.toNat - mapLocation) else disk b

theorem withMap_zero (disk : Blk → Block) (freemap : Blk → Bool) : withMap disk freemap 0 = disk := by
  funext b
  exact if_neg (by omega)

theorem withMap_succ (disk : Blk → Block) (freemap : Blk → Bool) {n : Nat} (hn : mapLocation + n < 0x100000000) :
    Function.update (withMap disk freemap n) (UInt32.ofNat (mapLocation + n)) (mapBlock freemap n) =
      withMap disk freemap (n + 1) := by
  have htoNat : (UInt32.ofNat (mapLocation + n)).toNat = mapLocation + n := UInt32.toNat_ofNat_of_lt' hn
  funext b
  by_cases hb : b = UInt32.ofNat (mapLocation + n)
  · subst hb
    rw [Function.update_self, withMap, htoNat, if_pos (by omega), Nat.add_sub_cancel_left]
  · have hne : b.toNat ≠ mapLocation + n := fun heq => hb (UInt32.toNat_inj.mp (heq.trans htoNat.symm))
    rw [Function.update_of_ne hb]
    simp only [withMap]
    by_cases hin : mapLocation ≤ b.toNat ∧ b.toNat < mapLocation + n
    · rw [if_pos hin, if_pos (by omega)]
    · rw [if_neg hin, if_neg (by omega)]

theorem wp_mapioWrite (disk : Blk → Block) (n : Nat) : ∀ {m : Nat} {s : State} {Q : Unit → State → Prop},
    s.faults = [] → mapLocation + (m + n) ≤ s.dBlocks → mapLocation + (m + n) < 0x100000000 →
    s.disk = withMap disk s.freemap m →
    (∀ t, t.toCore = { s.toCore with disk := withMap disk s.freemap (m + n) } → Q () t) →
    wp (mapioWrite m n) Q E s := by
  induction n with
  | zero =>
    intro m s Q _ _ _ hdisk hQ
    refine hQ s ?_
    rw [Nat.add_zero, ← hdisk]
  | succ n ih =>
    intro m s Q hfaults hdev hlt hdisk hQ
    have hon : (UInt32.ofNat (mapLocation + m)).toNat < s.dBlocks := by
      rw [UInt32.toNat_ofNat_of_lt' (show mapLocation + m < UInt32.size by simp only [UInt32.size]; omega)]
      omega
    simp only [mapioWrite, wp_bind]
    rw [wp_sfsWblock hfaults hon]
    refine ih hfaults (by rw [Nat.add_assoc, Nat.add_comm 1 n]; exact hdev)
      (by rw [Nat.add_assoc, Nat.add_comm 1 n]; exact hlt) ?_ fun t ht => hQ t ?_
    · show Function.update s.disk _ (mapBlock s.freemap m) = _
      rw [hdisk, withMap_succ _ _ (by omega)]
    · rw [ht, Nat.add_assoc, Nat.add_comm 1 n]

/-- The free map is written, and clean. -/
def Core.mapSynced (c : Core) : Core :=
  { c with disk := withMap c.disk c.freemap (bitblocks c.nblocks.toNat), freemapdirty := false }

theorem withMap_other {b : Blk} (hb : ¬ c.Reserved b) (freemap : Blk → Bool) :
    withMap c.disk freemap (bitblocks c.nblocks.toNat) b = c.disk b :=
  if_neg fun hin => hb (.inr (.inl hin))

theorem Sound.mapSynced (h : Sound leaked owed c) : Sound leaked owed c.mapSynced ∧ c.mapSynced.slots = c.slots := by
  have hpool : Pool c.mapSynced :=
    ⟨h.pool.mem, h.pool.nodup, h.pool.fresh, h.pool.inj, h.pool.ino_ne, h.pool.refs, h.pool.ops⟩
  have hdisk : ∀ b, ¬ c.Reserved b → c.mapSynced.disk b = c.disk b := fun b hb => withMap_other hb c.freemap
  have hsame : SameFiles c c.mapSynced := by
    refine .of_frame (fun i hi => hpool.inode_of ?_) (fun i hi r hr => hdisk _ ?_) (fun q w hq => Core.live_vnode hq)
      fun q w hq => .inr (.inr ⟨q, w, hq, rfl⟩)
    · rcases h.pool.isInode i with hloaded | ⟨hno, hn⟩
      · exact .inl hloaded
      · exact .inr ⟨hno, hn.trans (by rw [hdisk i (h.inode_not_reserved hi)])⟩
    · have := h.ledger.apart (i, some r) (by rwa [Core.held_place hi])
      rw [Core.held_place hi] at this
      exact fun hres => this (.inl hres)
  refine ⟨h.congr hsame ⟨h.fits.faults, h.fits.device, h.fits.large, h.fits.small⟩ hpool
    ⟨fun q w hq hclean => ?_, fun _ j hj => ?_, ⟨h.onDisk.super.1, ?_⟩, h.onDisk.volname⟩ rfl rfl, hsame.slots⟩
  · rw [hdisk _ (h.inode_not_reserved (Core.live_vnode hq))]
    exact h.onDisk.inodes q w hq hclean
  · show withMap c.disk c.freemap _ _ = mapBlock c.freemap j
    have hj : j < bitblocks c.nblocks.toNat := hj
    rw [withMap, h.fits.map_toNat hj, if_pos (by omega), Nat.add_sub_cancel_left]
  · show withMap c.disk c.freemap (bitblocks c.nblocks.toNat) sbLocation = superBlock c.nblocks c.volname
    rw [withMap, if_neg fun hin => absurd hin.1 (by decide)]
    exact h.onDisk.super.2

theorem Fits.map_le (h : Fits c) : mapLocation + bitblocks c.nblocks.toNat ≤ c.nblocks.toNat := by
  have := h.large
  simp only [mapLocation, bitblocks, blockBits]
  omega

theorem wp_sync (h : Volume leaked settled g s.toCore) {Q : Unit → State → Prop}
    (hQ : ∀ t, Volume leaked settled g t.toCore → (∀ p v, t.vnodes p = some v → v.dirty = false) → t.freemapdirty = false →
      t.slots = s.slots → Q () t) : wp sfsSync Q E s := by
  simp only [sfsSync, wp_bind, wp_read]
  rw [List.range_eq_range']
  refine wp_syncVnodes _ (Nat.zero_add _) h (fun i hi => absurd hi (Nat.not_lt_zero i)) fun t hvol hclean hslots => ?_
  have hsound := hvol.sound
  have hclean' : ∀ p v, t.vnodes p = some v → v.dirty = false := by
    intro p v hp
    obtain ⟨i, hi, rfl⟩ := List.mem_iff_getElem.mp ((hsound.pool.mem p).mpr (by rw [hp]; rfl))
    exact hclean i hi _ (List.getElem?_eq_getElem hi) v hp
  -- the superblock is never dirty
  have hsuper : ∀ t : State, Volume leaked settled g t.toCore → (∀ p v, t.vnodes p = some v → v.dirty = false) →
      t.freemapdirty = false → t.slots = s.slots → wp syncSuper Q E t := by
    intro t hvol hclean hmap hslots
    simp only [syncSuper, wp_bind, wp_read, hvol.sound.onDisk.super.1, Bool.false_eq_true, if_false, wp_pure]
    exact hQ t hvol hclean hmap hslots
  simp only [syncMap, wp_bind, wp_read, wp_ite, wp_pure]
  split
  · have hbits := hsound.fits.map_le
    refine wp_mapioWrite t.disk _ hsound.fits.faults ?_ ?_ (withMap_zero _ _).symm fun t' ht' => ?_
    · rw [Nat.zero_add]
      exact Nat.le_trans hbits hsound.fits.device
    · have := hsound.fits.small
      omega
    · simp only [wp_modify]
      obtain ⟨hsound', hslots'⟩ := hsound.mapSynced
      have hcore : { t'.toCore with freemapdirty := false } = t.toCore.mapSynced := by
        rw [ht', Nat.zero_add]
        rfl
      have hvnodes : t'.vnodes = t.vnodes := by rw [ht']
      refine hsuper { t' with freemapdirty := false } ⟨hcore ▸ hsound', ?_⟩ ?_ rfl ?_
      · exact ⟨by rw [hvnodes]; exact hvol.refs.open_eq, hvol.refs.open_le, by rw [hvnodes]; exact hvol.refs.held_le,
          by rw [hvnodes]; exact hvol.refs.there, by rw [hvnodes]; exact hvol.refs.ino⟩
      · intro p v hp
        have hp : t'.vnodes p = some v := hp
        rw [hvnodes] at hp
        exact hclean' p v hp
      · refine Eq.trans (congrArg Core.slots hcore) (hslots'.trans hslots)
  · rename_i hmap
    exact hsuper t hvol hclean' (Bool.eq_false_iff.mpr hmap) hslots

end Os161.Sfs
