import Os161.Sfs.Volume
import Os161.Laws.Sfs.Partial

/-!
# What a volume is

A volume is a set of files. A file is known by its inode, which is in memory or on the disk; it is live
when it is the root directory, has an entry there or is in memory. `Sound` is the invariant of a volume:
each marked block is of the volume itself or is claimed by one live inode at one place, the root directory
is a list of entries with distinct names, and the link counts are the numbers of entries. Inside an
operation an entry is written before the link count is, so that the counts are right up to `owed`. Blocks
may be marked although nothing refers to them; these are `leaked`.
-/

namespace Os161.Sfs

open Os161.Lib

/-! ## The files of a volume -/

/-- The vnode in memory of an inode number. -/
def Core.loaded (c : Core) (i : Blk) : Option Vnode :=
  c.table.findSome? fun p => (c.vnodes p).filter (·.ino = i)

/-- The inode of a number, as the volume has it: in memory, or else on the disk. -/
def Core.inode (c : Core) (i : Blk) : Inode :=
  match c.loaded i with
  | some v => v.inode
  | none => .ofBlock (c.disk i)

/-- The slots of a directory. -/
def slotsOf (n : Inode) (disk : Blk → Block) : List SfsDir :=
  (List.range (n.size.toNat / direntSize)).map fun k =>
    .ofBytes (bytesFrom (n.byteAt disk) (k * direntSize) direntSize)

/-- The slots of the root directory. -/
def Core.slots (c : Core) : List SfsDir := slotsOf (c.inode rootLocation) c.disk

/-- The occupied slots. -/
def occupied (slots : List SfsDir) : List SfsDir := slots.filter (·.ino ≠ 0)

/-- The entries of the root directory. -/
def Core.entries (c : Core) : List SfsDir := occupied c.slots

/-- The number of entries of an inode. -/
def links (entries : List SfsDir) (i : Blk) : Nat := entries.countP (·.ino = i)

/-- An inode in use. -/
def Core.Live (c : Core) (i : Blk) : Prop :=
  i = rootLocation ∨ (∃ d ∈ c.entries, d.ino = i) ∨ ∃ p v, c.vnodes p = some v ∧ v.ino = i

/-- A claim on a block: of an inode on its own block, or on the block at a place of its block map. -/
abbrev Claim := Blk × Option Place

open Classical in
/-- The block a claim is on, or 0. -/
noncomputable def Core.held (c : Core) : Claim → Blk
  | (i, none) => if c.Live i then i else 0
  | (i, some r) => if c.Live i then (c.inode i).blockAt c.disk r else 0

/-- The blocks of the volume itself: the superblock, the free map, and those past its end. -/
def Core.Reserved (c : Core) (b : Blk) : Prop :=
  b = 0 ∨ mapLocation ≤ b.toNat ∧ b.toNat < mapLocation + bitblocks c.nblocks.toNat ∨ c.nblocks ≤ b

/-- The blocks that no file has: those of the volume itself, and those that are marked although nothing refers to
them. -/
def Core.Taken (c : Core) (leaked : Blk → Prop) (b : Blk) : Prop := c.Reserved b ∨ leaked b

/-- No block is marked in vain. -/
def noLeak : Blk → Prop := fun _ => False

theorem Core.taken_noLeak (c : Core) : c.Taken noLeak = c.Reserved := funext fun _ => or_false _

/-- The table of vnodes. -/
structure Pool (c : Core) : Prop where
  mem : ∀ p, p ∈ c.table ↔ (c.vnodes p).isSome
  nodup : c.table.Nodup
  fresh : ∀ p, c.next ≤ p → c.vnodes p = none
  inj : ∀ p q v w, c.vnodes p = some v → c.vnodes q = some w → v.ino = w.ino → p = q
  ino_ne : ∀ p v, c.vnodes p = some v → v.ino ≠ 0
  refs : ∀ p v, c.vnodes p = some v → 1 ≤ v.refcount
  ops : ∀ p v, c.vnodes p = some v → opsOf v.inode.type = some v.ops

/-- The root directory. -/
structure RootOk (n : Inode) (slots : List SfsDir) : Prop where
  type : n.type = typeDir
  whole : n.size.toNat % direntSize = 0
  small : n.size.toNat ≤ maxFile
  names : ((occupied slots).map SfsDir.str).Nodup

/-- What is not marked dirty is on the disk as it is in memory. -/
structure OnDisk (c : Core) : Prop where
  inodes : ∀ p v, c.vnodes p = some v → v.dirty = false → Inode.ofBlock (c.disk v.ino) = v.inode
  map : c.freemapdirty = false → ∀ j, j < bitblocks c.nblocks.toNat →
    c.disk (UInt32.ofNat (mapLocation + j)) = mapBlock c.freemap j
  super : c.superdirty = false ∧ c.disk sbLocation = superBlock c.nblocks c.volname
  volname : c.volname.length < volnameSize ∧ 0 ∉ c.volname

/-- The volume is one that `mksfs` makes, on a device that does not fail. -/
structure Fits (c : Core) : Prop where
  faults : c.faults = []
  device : c.nblocks.toNat ≤ c.dBlocks
  large : 3 ≤ c.nblocks.toNat
  small : c.nblocks.toNat ≤ 131072

/-- The invariant of a volume, with the link counts right up to `owed` and the free map up to `leaked`. -/
structure Sound (leaked : Blk → Prop) (owed : Blk → Int) (c : Core) : Prop where
  fits : Fits c
  pool : Pool c
  ledger : Ledger 0 (c.Taken leaked) c.freemap c.held
  root : RootOk (c.inode rootLocation) c.slots
  file_type : ∀ i, c.Live i → i ≠ rootLocation → (c.inode i).type = typeFile
  links : ∀ i, c.Live i → ((c.inode i).linkcount.toNat : Int) + owed i =
    Sfs.links c.entries i + if i = rootLocation then 1 else 0
  onDisk : OnDisk c

variable {c c' : Core} {p q : Ptr} {v w : Vnode} {i : Blk} {owed : Blk → Int} {leaked : Blk → Prop}

theorem Fits.map_toNat (h : Fits c) {j : Nat} (hj : j < bitblocks c.nblocks.toNat) :
    (UInt32.ofNat (mapLocation + j)).toNat = mapLocation + j := by
  apply UInt32.toNat_ofNat_of_lt'
  have hsmall := h.small
  simp only [bitblocks, blockBits, mapLocation, UInt32.size] at *
  omega

theorem Fits.map_reserved (h : Fits c) {j : Nat} (hj : j < bitblocks c.nblocks.toNat) :
    c.Reserved (UInt32.ofNat (mapLocation + j)) := by
  refine .inr (.inl ?_)
  rw [h.map_toNat hj]
  exact ⟨Nat.le_add_right _ _, Nat.add_lt_add_left hj _⟩

/-! ## Inodes in memory -/

namespace Core

theorem loaded_some (hl : c.loaded i = some v) : ∃ p, c.vnodes p = some v ∧ v.ino = i := by
  obtain ⟨p, -, hp⟩ := List.exists_of_findSome?_eq_some hl
  rw [Option.filter_eq_some_iff] at hp
  exact ⟨p, hp.1, of_decide_eq_true hp.2⟩

theorem loaded_none (hnot : ∀ p v, c.vnodes p = some v → v.ino ≠ i) : c.loaded i = none := by
  cases hl : c.loaded i with
  | none => rfl
  | some w =>
    obtain ⟨q, hq, hino⟩ := loaded_some hl
    exact absurd hino (hnot q w hq)

theorem inode_disk (hnot : ∀ p v, c.vnodes p = some v → v.ino ≠ i) :
    c.inode i = .ofBlock (c.disk i) := by
  simp only [Core.inode, loaded_none hnot]

theorem live_root : c.Live rootLocation := .inl rfl

theorem live_vnode (hp : c.vnodes p = some v) : c.Live v.ino := .inr (.inr ⟨p, v, hp, rfl⟩)

theorem held_live (hi : c.Live i) : c.held (i, none) = i := if_pos hi

theorem held_place (hi : c.Live i) (r : Place) :
    c.held (i, some r) = (c.inode i).blockAt c.disk r := if_pos hi

end Core

namespace Pool

variable (h : Pool c)
include h

theorem loaded_eq (hp : c.vnodes p = some v) : c.loaded v.ino = some v := by
  cases hl : c.loaded v.ino with
  | none =>
    have hmem : p ∈ c.table := (h.mem p).mpr (by rw [hp]; rfl)
    have := List.findSome?_eq_none_iff.mp hl p hmem
    rw [hp] at this
    simp at this
  | some w =>
    obtain ⟨q, hq, hino⟩ := Core.loaded_some hl
    obtain rfl := h.inj q p w v hq hp hino
    rw [← hq, hp]

theorem inode_eq (hp : c.vnodes p = some v) : c.inode v.ino = v.inode := by
  simp only [Core.inode, h.loaded_eq hp]

theorem live_ne (hi : c.Live i) : i ≠ 0 := by
  rcases hi with rfl | ⟨d, hd, rfl⟩ | ⟨p, v, hp, rfl⟩
  · decide
  · simp only [Core.entries, occupied, List.mem_filter, decide_eq_true_eq] at hd
    exact hd.2
  · exact h.ino_ne p v hp

theorem replace (hp : c.vnodes p = some v) (hino : w.ino = v.ino) (href : 1 ≤ w.refcount)
    (hops : opsOf w.inode.type = some w.ops) (hvnodes : c'.vnodes = Function.update c.vnodes p (some w))
    (htable : c'.table = c.table) (hnext : c'.next = c.next) : Pool c' := by
  have hold : ∀ q u, c'.vnodes q = some u → q = p ∧ u = w ∨ q ≠ p ∧ c.vnodes q = some u := by
    intro q u hq
    rw [hvnodes, Function.update_apply] at hq
    split at hq
    · cases hq
      exact .inl ⟨‹_›, rfl⟩
    · exact .inr ⟨‹_›, hq⟩
  -- the vnode with that inode number before
  have hbefore : ∀ q u, c'.vnodes q = some u → ∃ u', c.vnodes q = some u' ∧ u.ino = u'.ino := by
    intro q u hq
    rcases hold q u hq with ⟨rfl, rfl⟩ | ⟨-, hq⟩
    · exact ⟨v, hp, hino⟩
    · exact ⟨u, hq, rfl⟩
  refine ⟨fun q => ?_, by rw [htable]; exact h.nodup, fun q hq => ?_, fun q r u u' hq hr heq => ?_, fun q u hq => ?_,
    fun q u hq => ?_, fun q u hq => ?_⟩
  · rw [htable, h.mem q, hvnodes, Function.update_apply]
    split
    · rename_i hqp
      subst hqp
      simp [hp]
    · exact Iff.rfl
  · rw [hnext] at hq
    rw [hvnodes, Function.update_of_ne]
    · exact h.fresh q hq
    · rintro rfl
      rw [h.fresh q hq] at hp
      cases hp
  · obtain ⟨a, ha, ha'⟩ := hbefore q u hq
    obtain ⟨b, hb, hb'⟩ := hbefore r u' hr
    exact h.inj q r a b ha hb (by rw [← ha', ← hb', heq])
  · obtain ⟨a, ha, ha'⟩ := hbefore q u hq
    rw [ha']
    exact h.ino_ne q a ha
  · rcases hold q u hq with ⟨-, rfl⟩ | ⟨-, hq⟩
    · exact href
    · exact h.refs q u hq
  · rcases hold q u hq with ⟨-, rfl⟩ | ⟨-, hq⟩
    · exact hops
    · exact h.ops q u hq

end Pool

/-! ## Inodes on another disk -/

section Disk

variable {n : Inode} {disk disk' : Blk → Block}
  (h : ∀ r, n.blockAt disk r ≠ 0 → disk' (n.blockAt disk r) = disk (n.blockAt disk r))
include h

theorem Inode.blockAt_frame : n.blockAt disk' = n.blockAt disk := by
  funext r
  cases r with
  | direct k => rfl
  | indirect => rfl
  | entry j =>
    simp only [Inode.blockAt]
    split
    · rfl
    · rename_i hi
      exact congrArg (words · j) (h .indirect hi)

theorem Inode.byteAt_frame : n.byteAt disk' = n.byteAt disk := by
  funext pos
  simp only [Inode.byteAt, Inode.blockAt_frame h]
  split
  · rfl
  · split
    · rfl
    · rename_i hr
      rw [h _ hr]

end Disk

/-! ## The same files -/

/-- The files of two volumes are the same. -/
structure SameFiles (c c' : Core) : Prop where
  live : ∀ i, c'.Live i ↔ c.Live i
  inode : ∀ i, c.Live i → c'.inode i = c.inode i
  blocks : ∀ i, c.Live i → (c.inode i).blockAt c'.disk = (c.inode i).blockAt c.disk
  bytes : ∀ i, c.Live i → (c.inode i).byteAt c'.disk = (c.inode i).byteAt c.disk

theorem SameFiles.of_frame (hinode : ∀ i, c.Live i → c'.inode i = c.inode i)
    (hdisk : ∀ i, c.Live i → ∀ r, (c.inode i).blockAt c.disk r ≠ 0 →
      c'.disk ((c.inode i).blockAt c.disk r) = c.disk ((c.inode i).blockAt c.disk r))
    (hin : ∀ p v, c'.vnodes p = some v → c.Live v.ino)
    (hout : ∀ p v, c.vnodes p = some v → v.ino = rootLocation ∨ (∃ d ∈ c.entries, d.ino = v.ino) ∨
      ∃ q w, c'.vnodes q = some w ∧ w.ino = v.ino) : SameFiles c c' := by
  have hbytes : ∀ i, c.Live i → (c.inode i).byteAt c'.disk = (c.inode i).byteAt c.disk :=
    fun i hi => Inode.byteAt_frame (hdisk i hi)
  have hentries : c'.entries = c.entries := by
    simp only [Core.entries, Core.slots, slotsOf, hinode _ Core.live_root, hbytes _ Core.live_root]
  refine ⟨fun i => ⟨?_, ?_⟩, hinode, fun i hi => Inode.blockAt_frame (hdisk i hi), hbytes⟩
  · rintro (rfl | hd | ⟨p, v, hp, rfl⟩)
    · exact .inl rfl
    · rw [hentries] at hd
      exact .inr (.inl hd)
    · exact hin p v hp
  · rintro (rfl | hd | ⟨p, v, hp, rfl⟩)
    · exact .inl rfl
    · rw [← hentries] at hd
      exact .inr (.inl hd)
    · rcases hout p v hp with h | h | h
      · exact .inl h
      · rw [← hentries] at h
        exact .inr (.inl h)
      · exact .inr (.inr h)

namespace SameFiles

variable (hsame : SameFiles c c')
include hsame

theorem slots : c'.slots = c.slots := by
  simp only [Core.slots, slotsOf, hsame.inode _ Core.live_root, hsame.bytes _ Core.live_root]

theorem entries : c'.entries = c.entries := congrArg occupied hsame.slots

theorem held : c'.held = c.held := by
  funext ⟨i, r⟩
  by_cases hi : c.Live i
  · have hi' := (hsame.live i).mpr hi
    cases r with
    | none => rw [Core.held_live hi, Core.held_live hi']
    | some r => rw [Core.held_place hi, Core.held_place hi', hsame.inode i hi, hsame.blocks i hi]
  · have hi' : ¬ c'.Live i := fun h => hi ((hsame.live i).mp h)
    cases r <;> simp only [Core.held, hi, hi', if_false]

end SameFiles

theorem Sound.congr (h : Sound leaked owed c) (hsame : SameFiles c c') (hfits : Fits c') (hpool : Pool c')
    (hdisk : OnDisk c') (hmap : c'.freemap = c.freemap) (hn : c'.nblocks = c.nblocks) :
    Sound leaked owed c' := by
  have htaken : c'.Taken leaked = c.Taken leaked := by
    funext b
    simp only [Core.Taken, Core.Reserved, hn]
  refine ⟨hfits, hpool, ?_, ?_, ?_, ?_, hdisk⟩
  · rw [hsame.held, hmap, htaken]
    exact h.ledger
  · rw [hsame.inode _ Core.live_root, hsame.slots]
    exact h.root
  · intro i hi hne
    rw [hsame.live] at hi
    rw [hsame.inode i hi]
    exact h.file_type i hi hne
  · intro i hi
    rw [hsame.live] at hi
    rw [hsame.inode i hi, hsame.entries]
    exact h.links i hi

/-! ## One file -/

/-- What is not of the file of an inode: the reserved blocks, the inodes, and the blocks of other files. -/
def Core.Others (c : Core) (leaked : Blk → Prop) (i : Blk) : Blk → Prop :=
  Ledger.Outside (c.Taken leaked) c.held fun r => (i, some r)

theorem Core.others_inode {j : Blk} (hj : c.Live j) : c.Others leaked i j :=
  .inr ⟨(j, none), by simp, Core.held_live hj⟩

theorem Core.others_block {j : Blk} (hj : c.Live j) (hne : j ≠ i) (r : Place) :
    c.Others leaked i ((c.inode j).blockAt c.disk r) :=
  .inr ⟨(j, some r), by simpa using fun h => (hne h.symm).elim, Core.held_place hj r⟩

theorem Sound.fileOk (h : Sound leaked owed c) (hp : c.vnodes p = some v) :
    FileOk (c.Others leaked v.ino) (c.file v) := by
  have hfocus := h.ledger.focus (e := fun r => (v.ino, some r)) fun r r' hr => by simpa using hr
  have hheld : (fun r => c.held (v.ino, some r)) = (c.file v).blockAt := by
    funext r
    rw [Core.held_place (Core.live_vnode hp), h.pool.inode_eq hp]
    rfl
  rw [hheld] at hfocus
  exact hfocus

theorem Sound.working (h : Sound leaked owed c) (i : Blk) : Working (c.Others leaked i) c :=
  ⟨h.fits.faults, h.fits.device, h.fits.small, fun _ hb => .inl (.inl (.inr (.inr hb)))⟩

/-- A change of one file, by a step of it or of its link count. -/
structure FileChange (R : Blk → Prop) (x x' : FileState) : Prop where
  ok : FileOk R x'
  frame : ∀ b, R b → x'.disk b = x.disk b
  map : x'.freemap = x.freemap ∧ x'.freemapdirty = x.freemapdirty ∨ x'.freemapdirty = true
  inode : x'.inode = x.inode ∧ x'.dirty = x.dirty ∨ x'.dirty = true
  type : x'.inode.type = x.inode.type

theorem FileStep.change {R : Blk → Prop} {x x' : FileState} (h : FileStep R x x') : FileChange R x x' :=
  ⟨h.ok, h.frame, h.map, h.inode, h.type⟩

section WithFile

variable {x' : FileState} (h : Sound leaked owed c) (hp : c.vnodes p = some v)

theorem Core.withFile_vnodes (q : Ptr) :
    (c.withFile p v x').vnodes q =
      if q = p then some { v with inode := x'.inode, dirty := x'.dirty } else c.vnodes q := by
  simp only [Core.withFile, Function.update_apply]

include hp

theorem Core.withFile_ino :
    (∃ q w, (c.withFile p v x').vnodes q = some w ∧ w.ino = i) ↔ ∃ q w, c.vnodes q = some w ∧ w.ino = i := by
  constructor
  · rintro ⟨q, w, hq, rfl⟩
    rw [Core.withFile_vnodes] at hq
    split at hq
    · cases hq
      exact ⟨p, v, hp, rfl⟩
    · exact ⟨q, w, hq, rfl⟩
  · rintro ⟨q, w, hq, rfl⟩
    by_cases hqp : q = p
    · subst hqp
      cases hp.symm.trans hq
      exact ⟨q, { v with inode := x'.inode, dirty := x'.dirty },
        by rw [Core.withFile_vnodes, if_pos rfl], rfl⟩
    · exact ⟨q, w, by rw [Core.withFile_vnodes, if_neg hqp, hq], rfl⟩

theorem Pool.withFile (h : Pool c) (htype : x'.inode.type = v.inode.type) :
    Pool (c.withFile p v x') :=
  h.replace (w := { v with inode := x'.inode, dirty := x'.dirty }) hp rfl (h.refs p v hp)
    (by rw [htype]; exact h.ops p v hp) rfl rfl rfl

include h

variable (hx : FileChange (c.Others leaked v.ino) (c.file v) x')
include hx

theorem Sound.withFile_inode : (c.withFile p v x').inode v.ino = x'.inode :=
  (h.pool.withFile hp hx.type).inode_eq (p := p)
    (v := { v with inode := x'.inode, dirty := x'.dirty }) (by rw [Core.withFile_vnodes, if_pos rfl])

theorem Sound.withFile_other (hi : c.Live i) (hne : i ≠ v.ino) :
    (c.withFile p v x').inode i = c.inode i := by
  have hpool := h.pool.withFile hp hx.type
  by_cases hloaded : ∃ q w, c.vnodes q = some w ∧ w.ino = i
  · obtain ⟨q, w, hq, rfl⟩ := hloaded
    have hqp : q ≠ p := by
      rintro rfl
      cases hp.symm.trans hq
      exact hne rfl
    rw [h.pool.inode_eq hq, hpool.inode_eq (p := q) (v := w)]
    rw [Core.withFile_vnodes, if_neg hqp, hq]
  · have hnot : ∀ q w, (c.withFile p v x').vnodes q = some w → w.ino ≠ i := fun q w hq hino =>
      hloaded ((Core.withFile_ino hp).mp ⟨q, w, hq, hino⟩)
    rw [Core.inode_disk hnot, Core.inode_disk fun q w hq hino => hloaded ⟨q, w, hq, hino⟩]
    show Inode.ofBlock (x'.disk i) = _
    rw [hx.frame i (Core.others_inode hi)]
    rfl

omit h hp in
/-- The blocks of the others are as they were. -/
theorem FileChange.disk_other (hi : c.Live i) (hne : i ≠ v.ino) (r : Place) :
    x'.disk ((c.inode i).blockAt c.disk r) = c.disk ((c.inode i).blockAt c.disk r) :=
  hx.frame _ (Core.others_block hi hne r)

theorem Sound.withFile_slots_root (hroot : v.ino = rootLocation) :
    (c.withFile p v x').slots = slotsOf x'.inode x'.disk := by
  have := h.withFile_inode hp hx
  rw [hroot] at this
  simp only [Core.slots, this]
  rfl

theorem Sound.withFile_slots_file (hroot : v.ino ≠ rootLocation) : (c.withFile p v x').slots = c.slots := by
  have hlive : c.Live rootLocation := Core.live_root
  simp only [Core.slots, h.withFile_other hp hx hlive (Ne.symm hroot), slotsOf]
  have : (c.inode rootLocation).byteAt x'.disk = (c.inode rootLocation).byteAt c.disk :=
    Inode.byteAt_frame fun r _ => hx.disk_other hlive (Ne.symm hroot) r
  show (List.range _).map (fun k => SfsDir.ofBytes (bytesFrom ((c.inode rootLocation).byteAt x'.disk) _ _)) = _
  rw [this]

theorem Sound.withFile {owed' : Blk → Int} (hlive : ∀ i, (c.withFile p v x').Live i ↔ c.Live i)
    (hroot : RootOk ((c.withFile p v x').inode rootLocation) (c.withFile p v x').slots)
    (hlinks : ∀ i, c.Live i → (((c.withFile p v x').inode i).linkcount.toNat : Int) + owed' i =
      Sfs.links (c.withFile p v x').entries i + if i = rootLocation then 1 else 0) :
    Sound leaked owed' (c.withFile p v x') := by
  have hinode := h.withFile_inode hp hx
  have hvlive : c.Live v.ino := Core.live_vnode hp
  refine ⟨⟨h.fits.faults, h.fits.device, h.fits.large, h.fits.small⟩, h.pool.withFile hp hx.type, ?_,
    hroot, ?_, fun i hi => hlinks i ((hlive i).mp hi), ?_⟩
  · refine h.ledger.unfocus hx.ok (fun r => ?_) ?_
    · rw [Core.held_place ((hlive _).mpr hvlive), hinode]
      rfl
    · rintro ⟨i, r⟩ hout
      by_cases hi : c.Live i
      · have hi' := (hlive i).mpr hi
        cases r with
        | none => rw [Core.held_live hi, Core.held_live hi']
        | some r =>
          have hne : i ≠ v.ino := by
            rintro rfl
            exact hout r rfl
          rw [Core.held_place hi, Core.held_place hi', h.withFile_other hp hx hi hne]
          exact congrFun (Inode.blockAt_frame fun r _ => hx.disk_other hi hne r) r
      · have hi' : ¬ (c.withFile p v x').Live i := fun h => hi ((hlive i).mp h)
        cases r <;> simp only [Core.held, hi, hi', if_false]
  · intro i hi hne
    rw [hlive] at hi
    by_cases hiv : i = v.ino
    · subst hiv
      rw [hinode, hx.type]
      have := h.file_type _ hi hne
      rwa [h.pool.inode_eq hp] at this
    · rw [h.withFile_other hp hx hi hiv]
      exact h.file_type i hi hne
  · refine ⟨?_, ?_, ⟨h.onDisk.super.1, ?_⟩, h.onDisk.volname⟩
    · intro q w hq hclean
      rw [Core.withFile_vnodes] at hq
      show Inode.ofBlock (x'.disk w.ino) = w.inode
      split at hq
      · cases hq
        rw [hx.frame _ (Core.others_inode hvlive)]
        rcases hx.inode with ⟨hsame, hdirty⟩ | hdirty
        · simp only [hsame]
          exact h.onDisk.inodes p v hp (hdirty.symm.trans hclean)
        · rw [hdirty] at hclean
          cases hclean
      · rw [hx.frame _ (Core.others_inode (Core.live_vnode hq))]
        exact h.onDisk.inodes q w hq hclean
    · intro hclean j hj
      have hclean : x'.freemapdirty = false := hclean
      show x'.disk _ = mapBlock x'.freemap j
      rcases hx.map with ⟨hsame, hdirty⟩ | hdirty
      · rw [hx.frame _ (.inl (.inl (h.fits.map_reserved hj))), hsame]
        exact h.onDisk.map (hdirty.symm.trans hclean) j hj
      · rw [hdirty] at hclean
        cases hclean
    · show x'.disk sbLocation = _
      rw [hx.frame _ (.inl (.inl (.inl rfl)))]
      exact h.onDisk.super.2

end WithFile

section Steps

variable {x' : FileState} (h : Sound leaked owed c) (hp : c.vnodes p = some v)
include h hp

theorem Sound.fileStep (hfile : v.ino ≠ rootLocation)
    (hx : FileStep (c.Others leaked v.ino) (c.file v) x') :
    Sound leaked owed (c.withFile p v x') ∧ (c.withFile p v x').slots = c.slots := by
  have hslots := h.withFile_slots_file hp hx.change hfile
  have hentries : (c.withFile p v x').entries = c.entries := congrArg occupied hslots
  have hrootinode := h.withFile_other hp hx.change Core.live_root (Ne.symm hfile)
  refine ⟨h.withFile hp hx.change (fun i => ?_) ?_ ?_, hslots⟩
  · simp only [Core.Live, hentries, Core.withFile_ino hp]
  · rw [hrootinode, hslots]
    exact h.root
  · intro i hi
    rw [hentries, ← h.links i hi]
    by_cases hiv : i = v.ino
    · subst hiv
      rw [h.withFile_inode hp hx.change, hx.links, h.pool.inode_eq hp]
      rfl
    · rw [h.withFile_other hp hx.change hi hiv]

theorem Sound.rootStep (hroot : v.ino = rootLocation)
    (hx : FileStep (c.Others leaked v.ino) (c.file v) x') {slots : List SfsDir}
    (hslots : slotsOf x'.inode x'.disk = slots) (hok : RootOk x'.inode slots)
    (hin : ∀ d ∈ occupied slots, c.Live d.ino)
    (hout : ∀ d ∈ c.entries, d.ino = rootLocation ∨ (∃ e ∈ occupied slots, e.ino = d.ino) ∨
      ∃ q w, c.vnodes q = some w ∧ w.ino = d.ino) :
    Sound leaked (fun i => owed i + Sfs.links (occupied slots) i - Sfs.links c.entries i) (c.withFile p v x') ∧
      (c.withFile p v x').slots = slots := by
  have hslots' := (h.withFile_slots_root hp hx.change hroot).trans hslots
  have hentries : (c.withFile p v x').entries = occupied slots := congrArg occupied hslots'
  have hinode := h.withFile_inode hp hx.change
  refine ⟨h.withFile hp hx.change (fun i => ?_) ?_ ?_, hslots'⟩
  · simp only [Core.Live, hentries, Core.withFile_ino hp]
    constructor
    · rintro (rfl | ⟨d, hd, rfl⟩ | hv)
      · exact .inl rfl
      · exact hin d hd
      · exact .inr (.inr hv)
    · rintro (rfl | ⟨d, hd, rfl⟩ | hv)
      · exact .inl rfl
      · exact hout d hd
      · exact .inr (.inr hv)
  · rw [hroot] at hinode
    rw [hinode, hslots']
    exact hok
  · intro i hi
    have hlinks := h.links i hi
    rw [hentries]
    have hsame : ((c.withFile p v x').inode i).linkcount = (c.inode i).linkcount := by
      by_cases hiv : i = v.ino
      · subst hiv
        rw [hinode, hx.links, h.pool.inode_eq hp]
        rfl
      · rw [h.withFile_other hp hx.change hi hiv]
    rw [hsame]
    omega

theorem Sound.relink (l : UInt16) :
    let x' : FileState := { c.file v with inode := { v.inode with linkcount := l }, dirty := true }
    Sound leaked (Function.update owed v.ino (owed v.ino + v.inode.linkcount.toNat - l.toNat))
      (c.withFile p v x') ∧ (c.withFile p v x').slots = c.slots := by
  intro x'
  have hx : FileChange (c.Others leaked v.ino) (c.file v) x' :=
    ⟨h.fileOk hp, fun _ _ => rfl, .inl ⟨rfl, rfl⟩, .inr rfl, rfl⟩
  have hinode := h.withFile_inode hp hx
  have hslots : (c.withFile p v x').slots = c.slots := by
    by_cases hroot : v.ino = rootLocation
    · rw [h.withFile_slots_root hp hx hroot]
      have := h.pool.inode_eq hp
      rw [hroot] at this
      simp only [Core.slots, this]
      rfl
    · exact h.withFile_slots_file hp hx hroot
  have hentries : (c.withFile p v x').entries = c.entries := congrArg occupied hslots
  refine ⟨h.withFile hp hx (fun i => ?_) ?_ ?_, hslots⟩
  · simp only [Core.Live, hentries, Core.withFile_ino hp]
  · rw [hslots]
    by_cases hroot : v.ino = rootLocation
    · have hold := h.pool.inode_eq hp
      rw [hroot] at hinode hold
      have := h.root
      rw [hold] at this
      rw [hinode]
      exact ⟨this.type, this.whole, this.small, this.names⟩
    · rw [h.withFile_other hp hx Core.live_root (Ne.symm hroot)]
      exact h.root
  · intro i hi
    have hlinks := h.links i hi
    rw [hentries]
    by_cases hiv : i = v.ino
    · subst hiv
      rw [h.pool.inode_eq hp] at hlinks
      rw [hinode, Function.update_self]
      show (l.toNat : Int) + _ = _
      omega
    · rw [h.withFile_other hp hx hi hiv, Function.update_of_ne hiv]
      exact hlinks

end Steps

end Os161.Sfs
