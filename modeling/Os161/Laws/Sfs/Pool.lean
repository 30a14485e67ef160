import Os161.Laws.Sfs.Sound

/-!
# Changes of the vnode table

A volume stays sound when a vnode is loaded, written back, or dropped: its files are the same, whether their inodes
are read from memory or from the disk. A new file, and a file that is given up, are one more and one less.
-/

namespace Os161.Sfs

open Os161.Lib

variable {c c' : Core} {p q : Ptr} {v v' w : Vnode} {i : Blk} {owed : Blk → Int} {leaked : Blk → Prop}

/-! ## Where an inode is -/

/-- The inode of a number is in memory, or on the disk. -/
def IsInode (c : Core) (i : Blk) (n : Inode) : Prop :=
  (∃ q w, c.vnodes q = some w ∧ w.ino = i ∧ w.inode = n) ∨
    (∀ q w, c.vnodes q = some w → w.ino ≠ i) ∧ n = .ofBlock (c.disk i)

theorem Pool.isInode (h : Pool c) (i : Blk) : IsInode c i (c.inode i) := by
  by_cases hloaded : ∃ q w, c.vnodes q = some w ∧ w.ino = i
  · obtain ⟨q, w, hq, rfl⟩ := hloaded
    exact .inl ⟨q, w, hq, rfl, (h.inode_eq hq).symm⟩
  · have hnot : ∀ q w, c.vnodes q = some w → w.ino ≠ i := fun q w hq hino => hloaded ⟨q, w, hq, hino⟩
    exact .inr ⟨hnot, Core.inode_disk hnot⟩

theorem Pool.inode_of (h : Pool c) {n : Inode} (hn : IsInode c i n) : c.inode i = n := by
  rcases hn with ⟨q, w, hq, rfl, rfl⟩ | ⟨hnot, rfl⟩
  · exact h.inode_eq hq
  · exact Core.inode_disk hnot

/-! ## A vnode with another count -/

/-- The volume with another vnode at `p`. -/
def Core.withVnode (c : Core) (p : Ptr) (v : Vnode) : Core := { c with vnodes := Function.update c.vnodes p (some v) }

theorem Core.withVnode_vnodes (q : Ptr) : (c.withVnode p v).vnodes q = if q = p then some v else c.vnodes q := by
  simp only [Core.withVnode, Function.update_apply]

/-- The same vnode but for its counts. -/
structure Recounted (v v' : Vnode) : Prop where
  ino : v'.ino = v.ino
  inode : v'.inode = v.inode
  ops : v'.ops = v.ops
  dirty : v'.dirty = v.dirty

section Recount

variable (hp : c.vnodes p = some v) (hv : Recounted v v') (href : 1 ≤ v'.refcount)
include hp hv

theorem Core.withVnode_cases (q : Ptr) (w : Vnode) (hq : (c.withVnode p v').vnodes q = some w) :
    ∃ w', c.vnodes q = some w' ∧ Recounted w' w := by
  rw [Core.withVnode_vnodes] at hq
  split at hq
  · cases hq
    rename_i hqp
    exact ⟨v, hqp ▸ hp, hv⟩
  · exact ⟨w, hq, rfl, rfl, rfl, rfl⟩

theorem Core.withVnode_exists (q : Ptr) (w : Vnode) (hq : c.vnodes q = some w) :
    ∃ w', (c.withVnode p v').vnodes q = some w' ∧ Recounted w w' := by
  rw [Core.withVnode_vnodes]
  split
  · rename_i hqp
    subst hqp
    cases hp.symm.trans hq
    exact ⟨v', rfl, hv⟩
  · exact ⟨w, hq, rfl, rfl, rfl, rfl⟩

include href in
theorem Pool.withVnode (h : Pool c) : Pool (c.withVnode p v') :=
  h.replace hp hv.ino href (by rw [hv.inode, hv.ops]; exact h.ops p v hp) rfl rfl rfl

include href in
/-- A volume with another count of references to a vnode. -/
theorem Sound.withVnode (h : Sound leaked owed c) :
    Sound leaked owed (c.withVnode p v') ∧ (c.withVnode p v').slots = c.slots := by
  have hpool := h.pool.withVnode hp hv href
  have hinode : ∀ i, (c.withVnode p v').inode i = c.inode i := by
    intro i
    refine hpool.inode_of ?_
    rcases h.pool.isInode i with ⟨q, w, hq, hino, hn⟩ | ⟨hnot, hn⟩
    · obtain ⟨w', hq', hw'⟩ := Core.withVnode_exists hp hv q w hq
      exact .inl ⟨q, w', hq', hw'.ino.trans hino, hw'.inode.trans hn⟩
    · refine .inr ⟨fun q w hq hino => ?_, hn⟩
      obtain ⟨w', hq', hw'⟩ := Core.withVnode_cases hp hv q w hq
      exact hnot q w' hq' (hw'.ino.symm.trans hino)
  have hsame : SameFiles c (c.withVnode p v') := by
    refine .of_frame (fun i _ => hinode i) (fun _ _ _ _ => rfl) (fun q w hq => ?_) fun q w hq => ?_
    · obtain ⟨w', hq', hw'⟩ := Core.withVnode_cases hp hv q w hq
      rw [hw'.ino]
      exact Core.live_vnode hq'
    · obtain ⟨w', hq', hw'⟩ := Core.withVnode_exists hp hv q w hq
      exact .inr (.inr ⟨q, w', hq', hw'.ino⟩)
  refine ⟨h.congr hsame ⟨h.fits.faults, h.fits.device, h.fits.large, h.fits.small⟩ hpool
    ⟨fun q w hq hclean => ?_, h.onDisk.map, h.onDisk.super, h.onDisk.volname⟩ rfl rfl, hsame.slots⟩
  obtain ⟨w', hq', hw'⟩ := Core.withVnode_cases hp hv q w hq
  rw [hw'.ino, hw'.inode]
  exact h.onDisk.inodes q w' hq' (hw'.dirty.symm.trans hclean)

end Recount

/-! ## Loading -/

/-- The volume with one more vnode, at the next address. -/
def Core.addVnode (c : Core) (v : Vnode) : Core :=
  { c with
    vnodes := Function.update c.vnodes c.next (some v)
    table := c.table ++ [c.next]
    next := c.next + 1 }

theorem Core.addVnode_vnodes (q : Ptr) :
    (c.addVnode v).vnodes q = if q = c.next then some v else c.vnodes q := by
  simp only [Core.addVnode, Function.update_apply]

section Add

variable (h : Pool c)
include h

theorem Core.addVnode_old (hq : c.vnodes q = some w) : (c.addVnode v).vnodes q = some w := by
  rw [Core.addVnode_vnodes, if_neg, hq]
  rintro rfl
  rw [h.fresh _ (Nat.le_refl _)] at hq
  cases hq

theorem Pool.addVnode (hnot : ∀ q w, c.vnodes q = some w → w.ino ≠ v.ino) (hino : v.ino ≠ 0) (href : 1 ≤ v.refcount)
    (hops : opsOf v.inode.type = some v.ops) : Pool (c.addVnode v) := by
  have hnext : c.vnodes c.next = none := h.fresh _ (Nat.le_refl _)
  have hnotmem : c.next ∉ c.table := fun hmem => by
    have := (h.mem c.next).mp hmem
    rw [hnext] at this
    cases this
  refine ⟨fun q => ?_, ?_, fun q hq => ?_, fun q r w w' hq hr heq => ?_, fun q w hq => ?_, fun q w hq => ?_,
    fun q w hq => ?_⟩
  · rw [Core.addVnode_vnodes]
    show q ∈ c.table ++ [c.next] ↔ _
    rw [List.mem_append, List.mem_singleton, h.mem q]
    split
    · rename_i hqn
      simp [hqn]
    · rename_i hqn
      simp [hqn]
  · exact h.nodup.append (List.nodup_singleton _) (List.disjoint_singleton.mpr hnotmem)
  · have hq : c.next + 1 ≤ q := hq
    rw [Core.addVnode_vnodes, if_neg (Nat.ne_of_gt hq)]
    exact h.fresh q (Nat.le_of_succ_le hq)
  · rw [Core.addVnode_vnodes] at hq hr
    split at hq
    · cases hq
      split at hr
      · rename_i hqn hrn
        exact hqn.trans hrn.symm
      · exact absurd heq.symm (hnot r w' hr)
    · split at hr
      · cases hr
        exact absurd heq (hnot q w hq)
      · exact h.inj q r w w' hq hr heq
  · rw [Core.addVnode_vnodes] at hq
    split at hq
    · cases hq
      exact hino
    · exact h.ino_ne q w hq
  · rw [Core.addVnode_vnodes] at hq
    split at hq
    · cases hq
      exact href
    · exact h.refs q w hq
  · rw [Core.addVnode_vnodes] at hq
    split at hq
    · cases hq
      exact hops
    · exact h.ops q w hq

end Add

theorem Sound.addVnode (h : Sound leaked owed c) (hnot : ∀ q w, c.vnodes q = some w → w.ino ≠ v.ino) (hlive : c.Live v.ino)
    (href : 1 ≤ v.refcount) (hops : opsOf v.inode.type = some v.ops) (hinode : v.inode = .ofBlock (c.disk v.ino)) :
    Sound leaked owed (c.addVnode v) ∧ (c.addVnode v).slots = c.slots := by
  have hpool := h.pool.addVnode hnot (h.pool.live_ne hlive) href hops
  have hsame : SameFiles c (c.addVnode v) := by
    refine .of_frame (fun i _ => hpool.inode_of ?_) (fun _ _ _ _ => rfl) (fun q w hq => ?_) fun q w hq => ?_
    · rcases h.pool.isInode i with ⟨q, w, hq, hino, hn⟩ | ⟨hno, hn⟩
      · exact .inl ⟨q, w, Core.addVnode_old h.pool hq, hino, hn⟩
      · by_cases hi : i = v.ino
        · subst hi
          exact .inl ⟨c.next, v, by rw [Core.addVnode_vnodes, if_pos rfl], rfl, hinode.trans hn.symm⟩
        · refine .inr ⟨fun q w hq hino => ?_, hn⟩
          rw [Core.addVnode_vnodes] at hq
          split at hq
          · cases hq
            exact hi hino.symm
          · exact hno q w hq hino
    · rw [Core.addVnode_vnodes] at hq
      split at hq
      · cases hq
        exact hlive
      · exact Core.live_vnode hq
    · exact .inr (.inr ⟨q, w, Core.addVnode_old h.pool hq, rfl⟩)
  refine ⟨h.congr hsame ⟨h.fits.faults, h.fits.device, h.fits.large, h.fits.small⟩ hpool
    ⟨fun q w hq hclean => ?_, h.onDisk.map, h.onDisk.super, h.onDisk.volname⟩ rfl rfl, hsame.slots⟩
  rw [Core.addVnode_vnodes] at hq
  split at hq
  · cases hq
    exact hinode.symm
  · exact h.onDisk.inodes q w hq hclean

/-! ## Writing back -/

/-- The volume with the inode of a vnode on the disk. -/
def Core.synced (c : Core) (p : Ptr) (v : Vnode) : Core :=
  { c with
    disk := Function.update c.disk v.ino v.inode.toBlock
    vnodes := Function.update c.vnodes p (some { v with dirty := false }) }

theorem Sound.inode_ne_block (h : Sound leaked owed c) {j : Blk} (hi : c.Live i) (hj : c.Live j) (r : Place)
    (hr : (c.inode j).blockAt c.disk r ≠ 0) : (c.inode j).blockAt c.disk r ≠ i := by
  intro heq
  have hheld : c.held (j, some r) = c.held (i, none) := by rw [Core.held_place hj, Core.held_live hi, heq]
  have := h.ledger.inj (j, some r) (i, none) (by rwa [Core.held_place hj]) hheld
  cases this

theorem Sound.inode_not_reserved (h : Sound leaked owed c) (hi : c.Live i) : ¬ c.Reserved i := by
  have hne : c.held (i, none) ≠ 0 := by
    rw [Core.held_live hi]
    exact h.pool.live_ne hi
  have := h.ledger.apart (i, none) hne
  rw [Core.held_live hi] at this
  exact fun hres => this (.inl hres)

theorem Sound.synced (h : Sound leaked owed c) (hp : c.vnodes p = some v) :
    Sound leaked owed (c.synced p v) ∧ (c.synced p v).slots = c.slots := by
  have hlive : c.Live v.ino := Core.live_vnode hp
  have hvnodes : ∀ q, (c.synced p v).vnodes q = if q = p then some { v with dirty := false } else c.vnodes q := by
    intro q
    simp only [Core.synced, Function.update_apply]
  have hold : ∀ q w, c.vnodes q = some w → ∃ w', (c.synced p v).vnodes q = some w' ∧ w'.ino = w.ino ∧
      w'.inode = w.inode := by
    intro q w hq
    rw [hvnodes]
    split
    · rename_i hqp
      subst hqp
      cases hp.symm.trans hq
      exact ⟨_, rfl, rfl, rfl⟩
    · exact ⟨w, hq, rfl, rfl⟩
  have hnew : ∀ q w, (c.synced p v).vnodes q = some w → ∃ w', c.vnodes q = some w' ∧ w.ino = w'.ino ∧
      w.inode = w'.inode ∧ (w.dirty = false → q = p ∨ w'.dirty = false) := by
    intro q w hq
    rw [hvnodes] at hq
    split at hq
    · rename_i hqp
      subst hqp
      cases hq
      exact ⟨v, hp, rfl, rfl, fun _ => .inl rfl⟩
    · exact ⟨w, hq, rfl, rfl, .inr⟩
  have hpool : Pool (c.synced p v) :=
    h.pool.replace (w := { v with dirty := false }) hp rfl (h.pool.refs p v hp) (h.pool.ops p v hp) rfl rfl rfl
  have hsame : SameFiles c (c.synced p v) := by
    refine .of_frame (fun i hi => hpool.inode_of ?_) (fun i hi r hr => ?_) (fun q w hq => ?_) fun q w hq => ?_
    · rcases h.pool.isInode i with ⟨q, w, hq, hino, hn⟩ | ⟨hno, hn⟩
      · obtain ⟨w', hq', hino', hn'⟩ := hold q w hq
        exact .inl ⟨q, w', hq', hino'.trans hino, hn'.trans hn⟩
      · refine .inr ⟨fun q w hq hino => ?_, hn.trans ?_⟩
        · obtain ⟨w', hq', hino', -⟩ := hnew q w hq
          exact hno q w' hq' (hino'.symm.trans hino)
        · show _ = Inode.ofBlock (Function.update c.disk v.ino _ i)
          rw [Function.update_of_ne fun hi => hno p v hp hi.symm]
    · exact Function.update_of_ne (h.inode_ne_block hlive hi r hr) _ _
    · obtain ⟨w', hq', hino', -⟩ := hnew q w hq
      rw [hino']
      exact Core.live_vnode hq'
    · obtain ⟨w', hq', hino', -⟩ := hold q w hq
      exact .inr (.inr ⟨q, w', hq', hino'⟩)
  have hreserved := h.inode_not_reserved hlive
  refine ⟨h.congr hsame ⟨h.fits.faults, h.fits.device, h.fits.large, h.fits.small⟩ hpool
    ⟨fun q w hq hclean => ?_, fun hclean j hj => ?_, ⟨h.onDisk.super.1, ?_⟩, h.onDisk.volname⟩ rfl rfl, hsame.slots⟩
  · obtain ⟨w', hq', hino', hinode', hdirty⟩ := hnew q w hq
    show Inode.ofBlock (Function.update c.disk v.ino _ w.ino) = w.inode
    rw [hino', hinode']
    by_cases hqp : q = p
    · subst hqp
      cases hp.symm.trans hq'
      rw [Function.update_self, Inode.ofBlock_toBlock]
    · have hne : w'.ino ≠ v.ino := fun heq => hqp (h.pool.inj q p w' v hq' hp heq)
      rw [Function.update_of_ne hne]
      exact h.onDisk.inodes q w' hq' ((hdirty hclean).resolve_left hqp)
  · show Function.update c.disk v.ino _ _ = _
    have hne : UInt32.ofNat (mapLocation + j) ≠ v.ino := by
      intro heq
      rw [← heq] at hreserved
      exact hreserved (h.fits.map_reserved hj)
    rw [Function.update_of_ne hne]
    exact h.onDisk.map hclean j hj
  · show Function.update c.disk v.ino _ sbLocation = _
    rw [Function.update_of_ne fun heq => hreserved (.inl heq.symm)]
    exact h.onDisk.super.2

/-! ## Dropping -/

/-- The volume without a vnode. -/
def Core.dropVnode (c : Core) (p : Ptr) : Core :=
  { c with table := c.table.erase p, vnodes := Function.update c.vnodes p none }

theorem Core.dropVnode_vnodes (hq : (c.dropVnode p).vnodes q = some w) : q ≠ p ∧ c.vnodes q = some w := by
  simp only [Core.dropVnode, Function.update_apply] at hq
  split at hq
  · cases hq
  · exact ⟨‹_›, hq⟩

theorem Core.dropVnode_old (hqp : q ≠ p) (hq : c.vnodes q = some w) : (c.dropVnode p).vnodes q = some w := by
  simp only [Core.dropVnode, Function.update_of_ne hqp, hq]

theorem Pool.dropVnode (h : Pool c) (p : Ptr) : Pool (c.dropVnode p) := by
  refine ⟨fun q => ?_, h.nodup.erase p, fun q hq => ?_, fun q r w w' hq hr => ?_, fun q w hq => ?_, fun q w hq => ?_,
    fun q w hq => ?_⟩
  · show q ∈ c.table.erase p ↔ (Function.update c.vnodes p none q).isSome
    rw [h.nodup.mem_erase_iff, h.mem q, Function.update_apply]
    split
    · rename_i hqp
      simp [hqp]
    · rename_i hqp
      simp [hqp]
  · show Function.update c.vnodes p none q = none
    rw [Function.update_apply]
    split
    · rfl
    · exact h.fresh q hq
  · exact h.inj q r w w' (Core.dropVnode_vnodes hq).2 (Core.dropVnode_vnodes hr).2
  · exact h.ino_ne q w (Core.dropVnode_vnodes hq).2
  · exact h.refs q w (Core.dropVnode_vnodes hq).2
  · exact h.ops q w (Core.dropVnode_vnodes hq).2

theorem Sound.dropVnode (h : Sound leaked owed c) (hp : c.vnodes p = some v) (hclean : v.dirty = false)
    (hnamed : v.ino = rootLocation ∨ ∃ d ∈ c.entries, d.ino = v.ino) :
    Sound leaked owed (c.dropVnode p) ∧ (c.dropVnode p).slots = c.slots := by
  have hpool := h.pool.dropVnode p
  have hsame : SameFiles c (c.dropVnode p) := by
    refine .of_frame (fun i _ => hpool.inode_of ?_) (fun _ _ _ _ => rfl)
      (fun q w hq => Core.live_vnode (Core.dropVnode_vnodes hq).2) fun q w hq => ?_
    · rcases h.pool.isInode i with ⟨q, w, hq, hino, hn⟩ | ⟨hno, hn⟩
      · by_cases hqp : q = p
        · subst hqp
          cases hp.symm.trans hq
          refine .inr ⟨fun r w' hr hino' => ?_, ?_⟩
          · obtain ⟨hrq, hr⟩ := Core.dropVnode_vnodes hr
            exact hrq (h.pool.inj r q w' v hr hp (hino'.trans hino.symm))
          · rw [← hn, ← hino]
            exact (h.onDisk.inodes q v hp hclean).symm
        · exact .inl ⟨q, w, Core.dropVnode_old hqp hq, hino, hn⟩
      · exact .inr ⟨fun q w hq => hno q w (Core.dropVnode_vnodes hq).2, hn⟩
    · by_cases hqp : q = p
      · subst hqp
        cases hp.symm.trans hq
        exact hnamed.imp_right .inl
      · exact .inr (.inr ⟨q, w, Core.dropVnode_old hqp hq, rfl⟩)
  refine ⟨h.congr hsame ⟨h.fits.faults, h.fits.device, h.fits.large, h.fits.small⟩ hpool
    ⟨fun q w hq => h.onDisk.inodes q w (Core.dropVnode_vnodes hq).2, h.onDisk.map, h.onDisk.super, h.onDisk.volname⟩
    rfl rfl, hsame.slots⟩

/-! ## New files -/

/-- The inode of a new file. -/
def newInode : Inode := { Inode.ofBlock zeros with type := typeFile }

theorem newInode_blockAt (disk : Blk → Block) (r : Place) : newInode.blockAt disk r = 0 := by
  cases r with
  | direct k => simp only [Inode.blockAt, newInode, Inode.ofBlock, words_zeros]
  | indirect => simp only [Inode.blockAt, newInode, Inode.ofBlock, words_zeros]
  | entry j => simp only [Inode.blockAt, newInode, Inode.ofBlock, words_zeros, if_true]

theorem newInode_linkcount : newInode.linkcount = 0 := by
  simp only [newInode, Inode.ofBlock, words_zeros]
  rfl

/-- The vnode of a new file. -/
def newVnode (b : Blk) : Vnode where
  refcount := 1
  opencount := 0
  ops := .file
  ino := b
  inode := newInode
  dirty := true

/-- The volume with a block taken and cleared. -/
def Core.takeBlock (c : Core) (b : Blk) : Core :=
  { c with
    disk := Function.update c.disk b zeros
    freemap := Function.update c.freemap b true
    freemapdirty := true }

theorem Sound.live_marked (h : Sound leaked owed c) (hi : c.Live i) : c.freemap i = true := by
  have hne : c.held (i, none) ≠ 0 := by
    rw [Core.held_live hi]
    exact h.pool.live_ne hi
  have := h.ledger.held_marked (i, none) hne
  rwa [Core.held_live hi] at this

section New

variable (h : Sound leaked owed c) {b : Blk} (hb : c.freemap b = false)
include h hb

theorem Sound.free_not_live : ¬ c.Live b := by
  intro hlive
  rw [h.live_marked hlive] at hb
  cases hb

theorem Sound.free_ne (hi : c.Live i) : i ≠ b := by
  rintro rfl
  exact h.free_not_live hb hi

theorem Sound.free_ne_block (hi : c.Live i) (r : Place) : (c.inode i).blockAt c.disk r ≠ b := by
  have := h.ledger.held_ne hb (i, some r)
  rwa [Core.held_place hi] at this

theorem Sound.newPool : Pool ((c.takeBlock b).addVnode (newVnode b)) :=
  Pool.addVnode (c := c.takeBlock b)
    ⟨h.pool.mem, h.pool.nodup, h.pool.fresh, h.pool.inj, h.pool.ino_ne, h.pool.refs, h.pool.ops⟩
    (fun _ _ hq => h.free_ne hb (Core.live_vnode hq)) (h.ledger.ne_null hb) (Nat.le_refl 1) rfl

omit h hb in
/-- The vnodes before, and the new one. -/
theorem Core.new_vnodes (hq : ((c.takeBlock b).addVnode (newVnode b)).vnodes q = some w) :
    w = newVnode b ∨ c.vnodes q = some w := by
  rw [Core.addVnode_vnodes] at hq
  split at hq
  · cases hq
    exact .inl rfl
  · exact .inr hq

omit hb in
theorem Sound.new_old (hq : c.vnodes q = some w) : ((c.takeBlock b).addVnode (newVnode b)).vnodes q = some w := by
  rw [Core.addVnode_vnodes, if_neg]
  · exact hq
  · rintro rfl
    cases hq.symm.trans (h.pool.fresh _ (Nat.le_refl _))

theorem Sound.new_inode (hi : c.Live i) : ((c.takeBlock b).addVnode (newVnode b)).inode i = c.inode i := by
  refine (h.newPool hb).inode_of ?_
  rcases h.pool.isInode i with ⟨q, w, hq, hino, hn⟩ | ⟨hno, hn⟩
  · exact .inl ⟨q, w, h.new_old hq, hino, hn⟩
  · refine .inr ⟨fun q w hq hino => ?_, hn.trans ?_⟩
    · rcases Core.new_vnodes hq with rfl | hq
      · exact h.free_ne hb hi hino.symm
      · exact hno q w hq hino
    · show _ = Inode.ofBlock (Function.update c.disk b zeros i)
      rw [Function.update_of_ne (h.free_ne hb hi)]

theorem Sound.new_inode_self : ((c.takeBlock b).addVnode (newVnode b)).inode b = newInode :=
  (h.newPool hb).inode_of (.inl ⟨c.next, newVnode b, by rw [Core.addVnode_vnodes]; exact if_pos rfl, rfl, rfl⟩)

theorem Sound.new_disk (hi : c.Live i) (r : Place) :
    (c.takeBlock b).disk ((c.inode i).blockAt c.disk r) = c.disk ((c.inode i).blockAt c.disk r) :=
  Function.update_of_ne (h.free_ne_block hb hi r) _ _

theorem Sound.new_slots : ((c.takeBlock b).addVnode (newVnode b)).slots = c.slots := by
  simp only [Core.slots, slotsOf, h.new_inode hb Core.live_root]
  have hbytes : (c.inode rootLocation).byteAt (c.takeBlock b).disk = (c.inode rootLocation).byteAt c.disk :=
    Inode.byteAt_frame fun r _ => h.new_disk hb Core.live_root r
  show (List.range _).map (fun k =>
    SfsDir.ofBytes (bytesFrom ((c.inode rootLocation).byteAt (c.takeBlock b).disk) _ _)) = _
  rw [hbytes]

theorem Sound.new_live (i : Blk) : ((c.takeBlock b).addVnode (newVnode b)).Live i ↔ c.Live i ∨ i = b := by
  have hentries : ((c.takeBlock b).addVnode (newVnode b)).entries = c.entries := congrArg occupied (h.new_slots hb)
  constructor
  · rintro (rfl | hd | ⟨q, w, hq, rfl⟩)
    · exact .inl Core.live_root
    · rw [hentries] at hd
      exact .inl (.inr (.inl hd))
    · rcases Core.new_vnodes hq with rfl | hq
      · exact .inr rfl
      · exact .inl (Core.live_vnode hq)
  · rintro ((rfl | hd | ⟨q, w, hq, rfl⟩) | rfl)
    · exact Core.live_root
    · rw [← hentries] at hd
      exact .inr (.inl hd)
    · exact Core.live_vnode (h.new_old hq)
    · refine Core.live_vnode (p := c.next) (v := newVnode i) ?_
      rw [Core.addVnode_vnodes]
      exact if_pos rfl

theorem Sound.new_held : ((c.takeBlock b).addVnode (newVnode b)).held = Function.update c.held (b, none) b := by
  have hlive := h.new_live hb
  have hself : ((c.takeBlock b).addVnode (newVnode b)).Live b := (hlive b).mpr (.inr rfl)
  have hnot := h.free_not_live hb
  funext ⟨i, r⟩
  by_cases hi : i = b
  · subst hi
    cases r with
    | none => rw [Core.held_live hself, Function.update_self]
    | some r =>
      rw [Core.held_place hself, h.new_inode_self hb, newInode_blockAt, Function.update_of_ne (by simp)]
      exact (if_neg hnot).symm
  · rw [Function.update_of_ne (by simp [hi])]
    by_cases hli : c.Live i
    · have hli' := (hlive i).mpr (.inl hli)
      cases r with
      | none => rw [Core.held_live hli, Core.held_live hli']
      | some r =>
        rw [Core.held_place hli, Core.held_place hli', h.new_inode hb hli]
        exact congrFun (Inode.blockAt_frame fun r _ => h.new_disk hb hli r) r
    · have hli' : ¬ ((c.takeBlock b).addVnode (newVnode b)).Live i := fun hl =>
        ((hlive i).mp hl).elim hli hi
      cases r <;> simp only [Core.held, hli, hli', if_false]

theorem Sound.leak : Sound (fun b' => leaked b' ∨ b' = b) owed (c.takeBlock b) ∧ (c.takeBlock b).slots = c.slots := by
  have hsame : SameFiles c (c.takeBlock b) := by
    refine .of_frame (fun i hi => ?_) (fun i hi r _ => h.new_disk hb hi r) (fun _ _ hq => Core.live_vnode hq)
      fun q w hq => .inr (.inr ⟨q, w, hq, rfl⟩)
    have hdisk : (c.takeBlock b).disk i = c.disk i := Function.update_of_ne (h.free_ne hb hi) _ _
    rw [Core.inode, hdisk]
    rfl
  have hres : ∀ b', c.Reserved b' → b' ≠ b := by
    rintro b' hb' rfl
    exact h.ledger.not_others hb (.inl hb')
  have htaken : (c.takeBlock b).Taken (fun b' => leaked b' ∨ b' = b) = fun b' => c.Taken leaked b' ∨ b' = b := by
    funext b'
    exact propext or_assoc.symm
  refine ⟨⟨⟨h.fits.faults, h.fits.device, h.fits.large, h.fits.small⟩,
    ⟨h.pool.mem, h.pool.nodup, h.pool.fresh, h.pool.inj, h.pool.ino_ne, h.pool.refs, h.pool.ops⟩, ?_, ?_,
    fun i hi hne => ?_, fun i hi => ?_, fun q w hq hclean => ?_, fun hclean => (by cases hclean),
    ⟨h.onDisk.super.1, ?_⟩, h.onDisk.volname⟩, hsame.slots⟩
  · rw [hsame.held, htaken]
    exact h.ledger.takenByOthers hb
  · rw [hsame.inode _ Core.live_root, hsame.slots]
    exact h.root
  · rw [hsame.live] at hi
    rw [hsame.inode i hi]
    exact h.file_type i hi hne
  · rw [hsame.live] at hi
    rw [hsame.inode i hi, hsame.entries]
    exact h.links i hi
  · show Inode.ofBlock (Function.update c.disk b zeros w.ino) = _
    rw [Function.update_of_ne (h.free_ne hb (Core.live_vnode hq))]
    exact h.onDisk.inodes q w hq hclean
  · show Function.update c.disk b zeros sbLocation = _
    rw [Function.update_of_ne (hres _ (.inl rfl))]
    exact h.onDisk.super.2

theorem Sound.newFile (howed : owed b = 0) :
    Sound leaked owed ((c.takeBlock b).addVnode (newVnode b)) ∧
      ((c.takeBlock b).addVnode (newVnode b)).slots = c.slots := by
  have hslots := h.new_slots hb
  have hentries : ((c.takeBlock b).addVnode (newVnode b)).entries = c.entries := congrArg occupied hslots
  have hroot : b ≠ rootLocation := (h.free_ne hb Core.live_root).symm
  have hres : ∀ b', c.Reserved b' → b' ≠ b := by
    rintro b' hb' rfl
    exact h.ledger.not_others hb (.inl hb')
  refine ⟨⟨⟨h.fits.faults, h.fits.device, h.fits.large, h.fits.small⟩, h.newPool hb, ?_, ?_, fun i hi hne => ?_,
    fun i hi => ?_, fun q w hq hclean => ?_, fun hclean => (by cases hclean), ⟨h.onDisk.super.1, ?_⟩,
    h.onDisk.volname⟩, hslots⟩
  · rw [h.new_held hb]
    exact h.ledger.take hb (if_neg (h.free_not_live hb))
  · rw [h.new_inode hb Core.live_root, hslots]
    exact h.root
  · rcases (h.new_live hb i).mp hi with hi | rfl
    · rw [h.new_inode hb hi]
      exact h.file_type i hi hne
    · rw [h.new_inode_self hb]
      rfl
  · rw [hentries]
    rcases (h.new_live hb i).mp hi with hi | rfl
    · rw [h.new_inode hb hi]
      exact h.links i hi
    · have hzero : Sfs.links c.entries i = 0 := by
        refine List.countP_eq_zero.mpr fun d hd hino => h.free_not_live hb (.inr (.inl ⟨d, hd, of_decide_eq_true hino⟩))
      rw [h.new_inode_self hb, newInode_linkcount, hzero, if_neg hroot, howed]
      rfl
  · rcases Core.new_vnodes hq with rfl | hq
    · cases hclean
    · show Inode.ofBlock (Function.update c.disk b zeros w.ino) = _
      rw [Function.update_of_ne (h.free_ne hb (Core.live_vnode hq))]
      exact h.onDisk.inodes q w hq hclean
  · show Function.update c.disk b zeros sbLocation = _
    rw [Function.update_of_ne (hres _ (.inl rfl))]
    exact h.onDisk.super.2

end New

/-! ## Files that are given up -/

/-- The volume without a vnode, whose block is free again. -/
def Core.freeVnode (c : Core) (p : Ptr) (b : Blk) : Core :=
  { c.dropVnode p with
    freemap := Function.update c.freemap b false
    freemapdirty := true }

section Free

variable (h : Sound leaked owed c) (hp : c.vnodes p = some v) (hroot : v.ino ≠ rootLocation)
  (hnoname : ∀ d ∈ c.entries, d.ino ≠ v.ino) (hblocks : ∀ r, v.inode.blockAt c.disk r = 0)

include h hp

theorem Sound.free_other (hq : (c.freeVnode p v.ino).vnodes q = some w) : w.ino ≠ v.ino := by
  obtain ⟨hqp, hq⟩ := Core.dropVnode_vnodes hq
  exact fun hino => hqp (h.pool.inj q p w v hq hp hino)

theorem Sound.free_inode (hne : i ≠ v.ino) : (c.freeVnode p v.ino).inode i = c.inode i := by
  have hpool : Pool (c.freeVnode p v.ino) :=
    have hdrop := h.pool.dropVnode p
    ⟨hdrop.mem, hdrop.nodup, hdrop.fresh, hdrop.inj, hdrop.ino_ne, hdrop.refs, hdrop.ops⟩
  refine hpool.inode_of ?_
  rcases h.pool.isInode i with ⟨q, w, hq, hino, hn⟩ | ⟨hno, hn⟩
  · have hqp : q ≠ p := by
      rintro rfl
      cases hp.symm.trans hq
      exact hne hino.symm
    exact .inl ⟨q, w, Core.dropVnode_old hqp hq, hino, hn⟩
  · exact .inr ⟨fun q w hq => hno q w (Core.dropVnode_vnodes hq).2, hn⟩

include hroot in
theorem Sound.free_slots : (c.freeVnode p v.ino).slots = c.slots := by
  simp only [Core.slots, h.free_inode hp (Ne.symm hroot)]
  rfl

include hroot hnoname

theorem Sound.free_live (i : Blk) : (c.freeVnode p v.ino).Live i ↔ c.Live i ∧ i ≠ v.ino := by
  have hentries : (c.freeVnode p v.ino).entries = c.entries := congrArg occupied (h.free_slots hp hroot)
  constructor
  · rintro (rfl | ⟨d, hd, rfl⟩ | ⟨q, w, hq, rfl⟩)
    · exact ⟨Core.live_root, Ne.symm hroot⟩
    · rw [hentries] at hd
      exact ⟨.inr (.inl ⟨d, hd, rfl⟩), hnoname d hd⟩
    · exact ⟨Core.live_vnode (Core.dropVnode_vnodes hq).2, h.free_other hp hq⟩
  · rintro ⟨rfl | hd | ⟨q, w, hq, rfl⟩, hne⟩
    · exact Core.live_root
    · rw [← hentries] at hd
      exact .inr (.inl hd)
    · have hqp : q ≠ p := by
        rintro rfl
        cases hp.symm.trans hq
        exact hne rfl
      exact .inr (.inr ⟨q, w, Core.dropVnode_old hqp hq, rfl⟩)

include hblocks

theorem Sound.free_held : (c.freeVnode p v.ino).held = Function.update c.held (v.ino, none) 0 := by
  have hlive := h.free_live hp hroot hnoname
  have hself : ¬ (c.freeVnode p v.ino).Live v.ino := fun hl => ((hlive _).mp hl).2 rfl
  have hvlive : c.Live v.ino := Core.live_vnode hp
  funext ⟨i, r⟩
  by_cases hi : i = v.ino
  · subst hi
    cases r with
    | none =>
      rw [Function.update_self]
      exact if_neg hself
    | some r =>
      rw [Function.update_of_ne (by simp), Core.held_place hvlive, h.pool.inode_eq hp, hblocks r]
      exact if_neg hself
  · rw [Function.update_of_ne (by simp [hi])]
    by_cases hli : c.Live i
    · have hli' := (hlive i).mpr ⟨hli, hi⟩
      cases r with
      | none => rw [Core.held_live hli, Core.held_live hli']
      | some r =>
        rw [Core.held_place hli, Core.held_place hli', h.free_inode hp hi]
        rfl
    · have hli' : ¬ (c.freeVnode p v.ino).Live i := fun hl => hli ((hlive i).mp hl).1
      cases r <;> simp only [Core.held, hli, hli', if_false]

theorem Sound.freeVnode :
    Sound leaked owed (c.freeVnode p v.ino) ∧ (c.freeVnode p v.ino).slots = c.slots := by
  have hslots := h.free_slots hp hroot
  have hentries : (c.freeVnode p v.ino).entries = c.entries := congrArg occupied hslots
  have hlive := h.free_live hp hroot hnoname
  have hvlive : c.Live v.ino := Core.live_vnode hp
  have hdrop := h.pool.dropVnode p
  refine ⟨⟨⟨h.fits.faults, h.fits.device, h.fits.large, h.fits.small⟩,
    ⟨hdrop.mem, hdrop.nodup, hdrop.fresh, hdrop.inj, hdrop.ino_ne, hdrop.refs, hdrop.ops⟩, ?_, ?_,
    fun i hi hne => ?_, fun i hi => ?_, fun q w hq => h.onDisk.inodes q w (Core.dropVnode_vnodes hq).2,
    fun hclean => (by cases hclean), h.onDisk.super, h.onDisk.volname⟩, hslots⟩
  · have hheld : c.held (v.ino, none) = v.ino := Core.held_live hvlive
    have hrelease := h.ledger.release (i := (v.ino, none)) (by rw [hheld]; exact h.pool.live_ne hvlive)
    rw [hheld] at hrelease
    rw [h.free_held hp hroot hnoname hblocks]
    exact hrelease
  · rw [h.free_inode hp (Ne.symm hroot), hslots]
    exact h.root
  · obtain ⟨hi, hiv⟩ := (hlive i).mp hi
    rw [h.free_inode hp hiv]
    exact h.file_type i hi hne
  · obtain ⟨hi, hiv⟩ := (hlive i).mp hi
    rw [h.free_inode hp hiv, hentries]
    exact h.links i hi

end Free

end Os161.Sfs
