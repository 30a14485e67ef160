import Os161.Laws.Sfsck.Blocks
import Os161.Laws.Sfsck.Entries

/-!
# `sfsck`: reading and writing a directory

A directory as `sfsck` reads it, block by block, is the directory as the file system has it, slot by slot; and
what it writes comes back, as far as inode numbers go also where a block is missing.
-/

namespace Os161.Sfsck

open Os161.Lib Os161.Sfs

variable {entries : List SfsDir} {s t : State} {m : Nat} {disk' : Blk → Block}

/-! ## Blocks and their entries -/

/-- A slot of a directory, past its size too. -/
def slotAt (n : Inode) (disk : Blk → Block) (k : Nat) : SfsDir :=
  .ofBytes (bytesFrom (n.byteAt disk) (k * direntSize) direntSize)

/-- The block of a file block, or 0. -/
def fileBlock (n : Inode) (disk : Blk → Block) (i : Nat) : Blk := (placeOf i).elim 0 (n.blockAt disk)

/-- The file in a disk, for the laws of one file. -/
def fileOf (n : Inode) (disk : Blk → Block) : FileState := ⟨disk, fun _ => false, false, n, false⟩

section Slots

variable {n : Inode} {disk : Blk → Block} {i j : Nat}

theorem slotAt_block (h : fileBlock n disk i ≠ 0) (hj : j < 8) :
    slotAt n disk (8 * i + j) = .ofBytes (slice (disk (fileBlock n disk i)) (direntSize * j) direntSize) := by
  unfold fileBlock at h ⊢
  cases hr : placeOf i with
  | none =>
    rw [hr] at h
    exact absurd rfl h
  | some r =>
    rw [hr] at h
    have hdiv : (8 * i + j) * direntSize / blockSize = i := by simp only [direntSize, blockSize]; omega
    have hmod : (8 * i + j) * direntSize % blockSize = direntSize * j := by
      simp only [direntSize, blockSize]
      omega
    have := slice_eq_bytesFrom (x := fileOf n disk) ((8 * i + j) * direntSize) direntSize
      (hdiv.symm ▸ hr) h (by rw [hmod]; simp only [direntSize, blockSize]; omega)
    rw [hmod] at this
    exact congrArg SfsDir.ofBytes this.symm

theorem ofBytes_zeros : SfsDir.ofBytes (List.replicate direntSize 0) = .empty := by decide

theorem slotAt_hole (h : fileBlock n disk i = 0) (hj : j < 8) : slotAt n disk (8 * i + j) = .empty := by
  have hbytes : bytesFrom (n.byteAt disk) ((8 * i + j) * direntSize) direntSize = List.replicate direntSize 0 := by
    refine List.eq_replicate_iff.mpr ⟨length_bytesFrom _ _ _, fun b hb => ?_⟩
    obtain ⟨k, hk, rfl⟩ := List.mem_map.mp hb
    have hk := List.mem_range.mp hk
    have hdiv : ((8 * i + j) * direntSize + k) / blockSize = i := by
      simp only [direntSize, blockSize] at hk ⊢
      omega
    unfold Inode.byteAt
    rw [hdiv]
    unfold fileBlock at h
    cases hr : placeOf i with
    | none => rfl
    | some r =>
      rw [hr] at h
      exact if_pos h
  rw [slotAt, hbytes, ofBytes_zeros]

theorem entriesOf_eq (h : fileBlock n disk i ≠ 0) :
    entriesOf (disk (fileBlock n disk i)) = (List.range' (8 * i) 8).map (slotAt n disk) := by
  rw [List.range'_eq_map_range, List.map_map]
  refine List.map_congr_left fun j hj => ?_
  exact (slotAt_block h (List.mem_range.mp hj)).symm

theorem empty_eq (h : fileBlock n disk i = 0) :
    List.replicate 8 SfsDir.empty = (List.range' (8 * i) 8).map (slotAt n disk) := by
  rw [List.range'_eq_map_range, List.map_map]
  refine (List.eq_replicate_iff.mpr ⟨by simp, fun d hd => ?_⟩).symm
  obtain ⟨j, hj, rfl⟩ := List.mem_map.mp hd
  exact slotAt_hole h (List.mem_range.mp hj)

end Slots

/-! ## The block of some entries -/

theorem length_flatMap_toBytes (hok : ∀ d ∈ entries, d.Ok) :
    (entries.flatMap SfsDir.toBytes).length = direntSize * entries.length := by
  induction entries with
  | nil => rfl
  | cons d rest ih =>
    rw [List.forall_mem_cons] at hok
    rw [List.flatMap_cons, List.length_append, hok.1.length, ih hok.2, List.length_cons]
    simp only [direntSize]
    omega

theorem take_drop_flatMap_toBytes (hok : ∀ d ∈ entries, d.Ok) {j : Nat}
    (hj : j < entries.length) :
    ((entries.flatMap SfsDir.toBytes).drop (direntSize * j)).take direntSize = entries[j].toBytes := by
  induction entries generalizing j with
  | nil => cases hj
  | cons d rest ih =>
    rw [List.forall_mem_cons] at hok
    cases j with
    | zero =>
      rw [List.flatMap_cons, Nat.mul_zero, List.drop_zero, ← hok.1.length, List.take_left]
      rfl
    | succ j =>
      rw [List.flatMap_cons, show direntSize * (j + 1) = d.toBytes.length + direntSize * j by
        rw [hok.1.length]
        simp only [direntSize]
        omega, List.drop_length_add_append, ih hok.2 (Nat.lt_of_succ_lt_succ hj)]
      rfl

theorem slice_blockOf (hok : ∀ d ∈ entries, d.Ok) (hlen : entries.length = 8) {j : Nat}
    (hj : j < entries.length) : slice (blockOf entries) (direntSize * j) direntSize = entries[j].toBytes := by
  have hbytes : (entries.flatMap SfsDir.toBytes).length = 512 := by
    rw [length_flatMap_toBytes hok, hlen]
    rfl
  rw [← take_drop_flatMap_toBytes hok hj]
  apply List.ext_getElem
  · rw [length_slice, List.length_take, List.length_drop, hbytes]
    simp only [direntSize]
    omega
  · intro k h₁ h₂
    rw [length_slice] at h₁
    have hin : direntSize * j + k < 512 := by
      simp only [direntSize] at *
      omega
    rw [getElem_slice (by rw [length_slice]; exact h₁) hin, blockOf,
      splice_of_mem (Nat.zero_le _) (by rw [hbytes]; omega), List.getElem_take, List.getElem_drop,
      List.getD_eq_getElem _ _ (by rw [hbytes]; exact hin)]
    rfl

/-! ## `dirread` -/

theorem dobmap_eq {n : Inode} {i : Nat} {b : Blk} (hsec : sector n.indirect = n.indirect)
    (h : dobmap n i s = .ok b t) : t = s ∧ b = fileBlock n s.disk i := by
  unfold dobmap at h
  unfold fileBlock placeOf
  by_cases h₁ : i < ndirect
  · rw [dif_pos h₁] at h ⊢
    cases h
    exact ⟨rfl, rfl⟩
  rw [dif_neg h₁] at h ⊢
  by_cases h₂ : i - ndirect < dbperidb
  · rw [dif_pos h₂] at h ⊢
    rw [Option.elim_some, Inode.blockAt]
    split at h
    · rename_i h0
      cases h
      exact ⟨rfl, (if_pos h0).symm⟩
    · rename_i h0
      obtain ⟨data, u, hread, hpure⟩ := of_bind_ok h
      obtain ⟨rfl, rfl⟩ := diskread_eq hread
      cases hpure
      rw [hsec]
      exact ⟨rfl, (if_neg h0).symm⟩
  · rw [dif_neg h₂] at h ⊢
    cases h
    exact ⟨rfl, rfl⟩

theorem dirread_eq {n : Inode} {i : Nat}
    (hsec : sector n.indirect = n.indirect)
    (hblocks : ∀ k, i ≤ k → k < i + m → sector (fileBlock n s.disk k) = fileBlock n s.disk k)
    (h : dirread n i m s = .ok entries t) :
    t = s ∧ entries = (List.range' (8 * i) (8 * m)).map (slotAt n s.disk) := by
  induction m generalizing i entries with
  | zero =>
    cases h
    exact ⟨rfl, rfl⟩
  | succ m ih =>
    have hrange : List.range' (8 * i) (8 * (m + 1)) = List.range' (8 * i) 8 ++ List.range' (8 * (i + 1)) (8 * m) := by
      rw [Nat.mul_succ 8 i, Nat.mul_succ 8 m, Nat.add_comm (8 * m) 8]
      exact (List.range'_append_1 ..).symm
    rw [hrange, List.map_append]
    obtain ⟨b, u, hmap, hrest⟩ := of_bind_ok h
    obtain ⟨rfl, rfl⟩ := dobmap_eq hsec hmap
    split at hrest
    · rename_i hb
      obtain ⟨data, v, hread, hgo⟩ := of_bind_ok hrest
      obtain ⟨rfl, rfl⟩ := diskread_eq hread
      obtain ⟨others, w, hothers, hpure⟩ := of_bind_ok hgo
      cases hpure
      obtain ⟨rfl, rfl⟩ := ih (fun k hk hk' => hblocks k (by omega) (by omega)) hothers
      rw [hblocks i (Nat.le_refl _) (by omega), entriesOf_eq hb]
      exact ⟨rfl, rfl⟩
    · rename_i hb
      obtain ⟨others, w, hothers, hpure⟩ := of_bind_ok hrest
      cases hpure
      obtain ⟨rfl, rfl⟩ := ih (fun k hk hk' => hblocks k (by omega) (by omega)) hothers
      rw [empty_eq (not_not.mp hb)]
      exact ⟨rfl, rfl⟩

/-! ## `dirwrite` -/

/-- The file blocks of a directory from `i` on: each is on a disk block of its own, which is not the indirect
block, or missing. -/
structure OwnBlocks (n : Inode) (disk : Blk → Block) (i m : Nat) : Prop where
  sector : ∀ k, i ≤ k → k < i + m → sector (fileBlock n disk k) = fileBlock n disk k
  indirect : ∀ k, i ≤ k → k < i + m → fileBlock n disk k ≠ 0 → fileBlock n disk k ≠ n.indirect
  inj : ∀ k l, i ≤ k → k < l → l < i + m → fileBlock n disk k ≠ 0 → fileBlock n disk k ≠ fileBlock n disk l

theorem OwnBlocks.tail {n : Inode} {disk : Blk → Block} {i : Nat} (h : OwnBlocks n disk i (m + 1)) :
    OwnBlocks n disk (i + 1) m :=
  ⟨fun k hk hk' => h.sector k (by omega) (by omega), fun k hk hk' => h.indirect k (by omega) (by omega),
    fun k l hk hkl hl => h.inj k l (by omega) hkl (by omega)⟩

theorem blockAt_eq_of_indirect {n : Inode} {disk : Blk → Block}
    (h : n.indirect ≠ 0 → disk' n.indirect = disk n.indirect) : n.blockAt disk' = n.blockAt disk := by
  funext r
  cases r with
  | direct k => rw [Inode.blockAt, Inode.blockAt]
  | indirect => rw [Inode.blockAt, Inode.blockAt]
  | entry j =>
    rw [Inode.blockAt, Inode.blockAt]
    split
    · rfl
    · rw [h ‹_›]

theorem fileBlock_congr {n : Inode} {disk : Blk → Block}
    (h : n.indirect ≠ 0 → disk' n.indirect = disk n.indirect) : fileBlock n disk' = fileBlock n disk := by
  unfold fileBlock
  rw [blockAt_eq_of_indirect h]

theorem OwnBlocks.congr {n : Inode} {disk : Blk → Block} {i : Nat} (h : OwnBlocks n disk i m)
    (hind : n.indirect ≠ 0 → disk' n.indirect = disk n.indirect) : OwnBlocks n disk' i m := by
  have := fileBlock_congr hind
  exact ⟨by rw [this]; exact h.sector, by rw [this]; exact h.indirect, by rw [this]; exact h.inj⟩

theorem slotAt_congr {n n' : Inode} {disk : Blk → Block} {i j : Nat} (hj : j < 8)
    (hfile : fileBlock n' disk' i = fileBlock n disk i)
    (hblock : fileBlock n disk i ≠ 0 → disk' (fileBlock n disk i) = disk (fileBlock n disk i)) :
    slotAt n' disk' (8 * i + j) = slotAt n disk (8 * i + j) := by
  by_cases h0 : fileBlock n disk i = 0
  · rw [slotAt_hole h0 hj, slotAt_hole (hfile.trans h0) hj]
  · rw [slotAt_block h0 hj, slotAt_block (hfile.trans_ne h0) hj, hfile, hblock h0]

/-- The blocks that `dirwrite` writes. -/
def Written (n : Inode) (disk : Blk → Block) (i m : Nat) (b : Blk) : Prop :=
  ∃ k, i ≤ k ∧ k < i + m ∧ b = fileBlock n disk k ∧ b ≠ 0

theorem Written.not_indirect {n : Inode} {disk : Blk → Block} {i : Nat} (h : OwnBlocks n disk i m) :
    ¬ Written n disk i m n.indirect := by
  rintro ⟨k, hk, hk', heq, h0⟩
  exact h.indirect k hk hk' (heq ▸ h0) heq.symm

theorem slots_split {n : Inode} {disk : Blk → Block} {i : Nat}
    (hlen : entries.length = 8 * (m + 1))
    (hfirst : ∀ k (hk : k < (entries.take 8).length), (slotAt n disk (8 * i + k)).ino = (entries.take 8)[k].ino)
    (hrest : ∀ k (hk : k < (entries.drop 8).length),
      (slotAt n disk (8 * (i + 1) + k)).ino = (entries.drop 8)[k].ino) :
    ∀ k (hk : k < entries.length), (slotAt n disk (8 * i + k)).ino = entries[k].ino := by
  intro k hk
  rcases Nat.lt_or_ge k 8 with hk8 | hk8
  · have := hfirst k (by rw [List.length_take]; omega)
    rwa [List.getElem_take] at this
  · have := hrest (k - 8) (by rw [List.length_drop]; omega)
    rw [List.getElem_drop, show 8 * (i + 1) + (k - 8) = 8 * i + k by omega] at this
    simpa only [show 8 + (k - 8) = k by omega] using this

theorem dirwrite_quiet {n : Inode} {i : Nat}
    (hsec : sector n.indirect = n.indirect) (hown : OwnBlocks n s.disk i m) (hok : ∀ d ∈ entries, d.Ok)
    (hlen : entries.length = 8 * m) (h : dirwrite n i m entries s = .ok () t) (ht : t.badness ≤ exitRecov) :
    Quiet s t [] (Written n s.disk i m) ∧
      ∀ k (hk : k < entries.length), (slotAt n t.disk (8 * i + k)).ino = entries[k].ino := by
  induction m generalizing i entries s with
  | zero =>
    cases h
    refine ⟨Quiet.refl _ _, fun k hk => ?_⟩
    omega
  | succ m ih =>
    have hok₁ : ∀ d ∈ entries.take 8, d.Ok := fun d hd => hok d (List.mem_of_mem_take hd)
    have hok₂ : ∀ d ∈ entries.drop 8, d.Ok := fun d hd => hok d (List.mem_of_mem_drop hd)
    have hlen₁ : (entries.take 8).length = 8 := by
      rw [List.length_take]
      omega
    have hlen₂ : (entries.drop 8).length = 8 * m := by
      rw [List.length_drop]
      omega
    have htail : ∀ b, Written n s.disk (i + 1) m b → Written n s.disk i (m + 1) b := by
      rintro b ⟨k, hk, hk', hb⟩
      exact ⟨k, by omega, by omega, hb⟩
    obtain ⟨b, u, hmap, hrest⟩ := of_bind_ok h
    obtain ⟨rfl, rfl⟩ := dobmap_eq hsec hmap
    split at hrest
    · rename_i hb
      obtain ⟨_, v, hwrite, hgo⟩ := of_bind_ok hrest
      obtain ⟨q, hdata⟩ := diskwrite_quiet hwrite (hown.sector i (Nat.le_refl _) (by omega))
      have hind : n.indirect ≠ 0 → v.disk n.indirect = u.disk n.indirect := fun _ =>
        q.disk _ (hown.indirect i (Nat.le_refl _) (by omega) hb).symm
      obtain ⟨q', hslots⟩ := ih (hown.tail.congr hind) hok₂ hlen₂ hgo
      have hW : Written n v.disk (i + 1) m = Written n u.disk (i + 1) m := by
        unfold Written
        rw [fileBlock_congr hind]
      rw [hW] at q'
      refine ⟨?_, slots_split hlen (fun k hk => ?_) hslots⟩
      · refine (q.mono fun c hc => ?_).trans (q'.mono htail)
        exact ⟨i, Nat.le_refl _, by omega, hc, hc ▸ hb⟩
      · -- the first block is not written again
        have hkeep : t.disk (fileBlock n u.disk i) = blockOf (entries.take 8) := by
          rw [← hdata]
          refine q'.disk _ ?_
          rintro ⟨l, hl, hl', heq, -⟩
          exact hown.inj i l (Nat.le_refl _) hl (by omega) hb heq
        have hindt : n.indirect ≠ 0 → t.disk n.indirect = u.disk n.indirect := fun h0 =>
          (q'.disk _ (Written.not_indirect hown.tail)).trans (hind h0)
        have hfile := congrFun (fileBlock_congr hindt) i
        rw [slotAt_block (hfile.trans_ne hb) (by omega), hfile, hkeep, slice_blockOf hok₁ hlen₁ hk,
          SfsDir.ofBytes_toBytes]
    · rename_i hb
      have hb := not_not.mp hb
      obtain ⟨_, v, hbad, hgo⟩ := of_bind_ok hrest
      have htv := (dirwrite_calm _ _ _ _).badness_le hgo ht
      obtain ⟨hempty, rfl⟩ : (∀ d ∈ entries.take 8, d.ino = 0) ∧ v = u := by
        rcases onlyIf_eq hbad with ⟨_, hset⟩ | ⟨hc, rfl⟩
        · cases hset
          exact absurd htv (by simp [exitRecov, exitUnrecov])
        · refine ⟨fun d hd => ?_, rfl⟩
          by_contra h0
          exact hc ⟨d, hd, .inl h0⟩
      obtain ⟨q', hslots⟩ := ih hown.tail hok₂ hlen₂ hgo
      refine ⟨q'.mono htail, slots_split hlen (fun k hk => ?_) hslots⟩
      have hindt : n.indirect ≠ 0 → t.disk n.indirect = v.disk n.indirect := fun _ =>
        q'.disk _ (Written.not_indirect hown.tail)
      rw [slotAt_hole ((congrFun (fileBlock_congr hindt) i).trans hb) (by omega),
        hempty _ (List.getElem_mem hk)]
      rfl

end Os161.Sfsck
