import Os161.Laws.Sfs.Snapshot

/-!
# A volume over many mounts

A volume is used, synced and mounted again, any number of times. `sfs_unmount` refuses when a file is in memory, and a
machine that is reset after `sfs_sync` forgets such files. Neither loses anything as long as each of them has a name: a
file without one has blocks that only its vnode refers to.
-/

namespace Os161.Sfs

open Os161.Lib Prog

/-- Each file in memory is the root directory or has a name. -/
def Core.AllNamed (c : Core) : Prop :=
  ∀ p v, c.vnodes p = some v → v.ino = rootLocation ∨ ∃ d ∈ c.entries, d.ino = v.ino

/-- A state reached from a new volume by operations and by mounting its disk again after `sfs_sync`. -/
inductive Cycled (volname : CStr) (size : Nat) : State → Prop
  | new {s : State} : Reached volname size [] s → Cycled volname size s
  | step {s : State} (op : Op) : Cycled volname size s → op.Allowed s →
      (∀ e, (op.prog.run s).1 ≠ .error (.panic e)) → Cycled volname size (op.prog.run s).2
  | remount {s t s' m : State} : Cycled volname size s → sfsSync.run s = (.ok (), t) → t.AllNamed → s'.disk = t.disk →
      s'.faults = [] → t.nblocks.toNat ≤ s'.dBlocks → sfsDomount.run s' = (.ok (), m) → Cycled volname size m

/-- A sound volume between two operations. -/
abbrev Core.Whole (c : Core) : Prop := Volume noLeak settled nobody c

/-- Everything is on the disk. -/
structure Core.Clean (c : Core) : Prop where
  inodes : ∀ p v, c.vnodes p = some v → v.dirty = false
  map : c.freemapdirty = false

variable {volname : CStr} {size : Nat} {s s' : State} {c : Core} {op : Op}

section Volume

variable (h : s.Whole)
include h

theorem Volume.mountedWith (hclean : s.Clean) (hnamed : s.AllNamed) (hdisk : c.disk = s.disk) (hfaults : c.faults = [])
    (hdev : s.nblocks.toNat ≤ c.dBlocks) : (c.mountedWith s.nblocks s.volname s.freemap).Whole := by
  have hsame : SameVolume s.toCore (c.mountedWith s.nblocks s.volname s.freemap) := h.sound.mounted hclean.inodes hdisk
  have himage : Image c.disk s.nblocks s.volname s.freemap := hdisk ▸ h.sound.image hclean.map
  -- the inodes are those on the disk now, and nothing is in memory
  refine ⟨h.sound.congr (.of_frame (fun i _ => ?_) (fun i _ r _ => congrFun hdisk _) (fun _ _ hp => (nomatch hp))
    fun p v hp => (hnamed p v hp).imp_right .inl) ⟨hfaults, hdev, himage.large, himage.small⟩ ?_ himage.onDisk
    hsame.freemap rfl, ⟨fun _ _ hp => (nomatch hp), fun _ => Nat.le_refl 0, fun _ _ hp => (nomatch hp), fun _ _ => rfl,
      fun _ _ hp => (nomatch hp)⟩⟩
  · rw [← h.sound.inode_clean hclean.inodes i, ← hdisk]
    rfl
  · exact ⟨fun p => by simp [Core.mountedWith], List.nodup_nil, fun _ _ => rfl, fun _ _ _ _ hp => (nomatch hp),
      fun _ _ hp => (nomatch hp), fun _ _ hp => (nomatch hp), fun _ _ hp => (nomatch hp)⟩

theorem Volume.remount (hclean : s.Clean) (hdisk : s'.disk = s.disk) (hfaults : s'.faults = [])
    (hdev : s.nblocks.toNat ≤ s'.dBlocks) : ∃ m, sfsDomount.run s' = (.ok (), m) ∧ SameVolume s.toCore m.toCore ∧
      (s.AllNamed → m.Whole) := by
  have himage : Image s'.disk s.nblocks s.volname s.freemap := hdisk ▸ h.sound.image hclean.map
  have hdone : AllDone (bitblocks s.nblocks.toNat + 1) s'.faults := hfaults ▸ .nil _
  refine ⟨_, run_of_wp (wp_domount himage hdone hdev ⟨rfl, rfl⟩), h.sound.mounted hclean.inodes hdisk, fun hnamed => ?_⟩
  exact h.mountedWith (c := { s'.toCore with faults := s'.faults.drop _ }) hclean hnamed hdisk
    (by rw [hfaults]; exact List.drop_nil) hdev

theorem Volume.sync : ∃ t, sfsSync.run s = (.ok (), t) ∧ t.Whole ∧ t.Clean ∧ t.slots = s.slots := by
  obtain ⟨_, t, ht⟩ := (wp_sync (E := fun _ _ => False) (Q := fun _ t => t.Whole ∧ t.Clean ∧ t.slots = s.slots) h
    fun _ hvol hclean hmap hslots => ⟨hvol, ⟨hclean, hmap⟩, hslots⟩).returns
  exact ⟨t, ht⟩

theorem Volume.run_op (hop : op.Allowed s) (hpanic : ∀ e, (op.prog.run s).1 ≠ .error (.panic e)) :
    (op.prog.run s).2.Whole := by
  have hwp := wp_op ⟨h, fun hno => by cases hno⟩ hop
  rw [wp] at hwp
  generalize op.prog.run s = r at *
  obtain ⟨_ | _, t⟩ := r
  · rename_i stop
    cases stop with
    | err e => exact Settled.volume hwp
    | panic e => exact absurd rfl (hpanic e)
  · exact hwp.volume

end Volume

theorem Cycled.volume (hlarge : 3 ≤ size) (h : Cycled volname size s) : s.Whole := by
  induction h with
  | new h => exact h.volume hlarge h.small
  | step op _ hop hpanic ih => exact ih.run_op hop hpanic
  | remount _ hsync hnamed hdisk hfaults hdev hmount ih =>
    obtain ⟨_, hsync', hvol, hclean, -⟩ := ih.sync
    cases hsync.symm.trans hsync'
    obtain ⟨_, hmount', -, hnew⟩ := hvol.remount hclean hdisk hfaults hdev
    cases hmount.symm.trans hmount'
    exact hnew hnamed

/-- The volume with a file `a` and nothing in memory. -/
def closedVolume : State := ((Op.decref 0).prog.run ((Op.decref 1).prog.run (namedVolume [])).2).2

end Os161.Sfs
