import Os161.Laws.Sfsck.Dir

/-!
# `sfsck`: the inodes of an image

The walk of `check_dir`, read off an image that is not changed on the way. It gives the inodes that the check
comes to, each with the directory and the slot that name it and with the inode numbers that are left in its own
slots. An entry is passed over if its inode number is already in use or is not on the volume; what the check finds
there must have been no inode, or the run would have ended with `EXIT_UNRECOV`.
-/

namespace Os161.Sfsck

open Os161.Lib Os161.Sfs

variable {n : Inode} {r : Place}

/-- An inode that the check comes to. -/
structure Node where
  ino : Blk
  parent : Blk
  slot : Nat
  inode : Inode
  inos : List Blk

/-- The blocks that an inode has marked. -/
def Node.blocks (disk : Blk → Block) (x : Node) : List Blk := x.ino :: claimed x.inode disk

/-- The inodes so far, the blocks of the volume and of directories that are not done, and the counter. -/
structure Walk where
  busy : List Blk
  nodes : List Node
  counter : UInt32

/-- All the blocks that are marked. -/
def Walk.held (disk : Blk → Block) (w : Walk) : List Blk := w.busy ++ w.nodes.flatMap (Node.blocks disk)

/-- A directory with its size corrected. -/
def roundSize (n : Inode) : Inode :=
  if n.size % 64 ≠ 0 then { n with size := (n.size + 64 - 1) / 64 * 64 } else n

/-- The number of blocks that `dirread` reads. -/
def dirBlocks (n : Inode) : Nat := ((n.size / 64 + 8 - 1) / 8 * 8 / 8).toNat

/-- The entries of a directory, and empty ones up to the end of its last block. -/
def dirEntries (n : Inode) (disk : Blk → Block) : List SfsDir :=
  ((List.range (8 * dirBlocks n)).map (slotAt n disk)).take (n.size / 64).toNat ++
    List.replicate (8 * dirBlocks n - (n.size / 64).toNat) .empty

/-! ## The entries of a directory -/

theorem ofBytes_ok {bytes : List UInt8} (h : bytes.length = direntSize) : (SfsDir.ofBytes bytes).Ok := by
  rcases bytes with _ | ⟨b₀, _ | ⟨b₁, _ | ⟨b₂, _ | ⟨b₃, rest⟩⟩⟩⟩
  · cases h
  · cases h
  · cases h
  · cases h
  · simp only [List.length_cons, direntSize] at h
    simp only [SfsDir.Ok, SfsDir.ofBytes, nameLen]
    omega

theorem slotAt_ok (n : Inode) (disk : Blk → Block) (k : Nat) : (slotAt n disk k).Ok :=
  ofBytes_ok (length_bytesFrom _ _ _)

theorem dirEntries_ok (n : Inode) (disk : Blk → Block) : ∀ d ∈ dirEntries n disk, d.Ok := by
  intro d hd
  rcases List.mem_append.mp hd with hd | hd
  · obtain ⟨k, -, rfl⟩ := List.mem_map.mp (List.mem_of_mem_take hd)
    exact slotAt_ok n disk k
  · rw [List.eq_of_mem_replicate hd]
    exact SfsDir.empty_ok

theorem entries_le (n : Inode) : (n.size / 64).toNat ≤ 8 * dirBlocks n := by
  have hlt := n.size.toNat_lt
  unfold dirBlocks
  simp only [UInt32.toNat_add, UInt32.toNat_sub, UInt32.toNat_mul, UInt32.toNat_div, UInt32.reduceToNat]
  omega

theorem length_dirEntries (n : Inode) (disk : Blk → Block) : (dirEntries n disk).length = 8 * dirBlocks n := by
  have := entries_le n
  rw [dirEntries, List.length_append, List.length_take, List.length_map, List.length_range, List.length_replicate]
  omega

theorem drop_dirEntries (n : Inode) (disk : Blk → Block) :
    ∀ d ∈ (dirEntries n disk).drop (n.size / 64).toNat, d.name.headD 0 = 0 := by
  have hle := entries_le n
  have hlen : (((List.range (8 * dirBlocks n)).map (slotAt n disk)).take (n.size / 64).toNat).length =
      (n.size / 64).toNat := by
    rw [List.length_take, List.length_map, List.length_range]
    omega
  rw [dirEntries, List.drop_append_of_le_length (by rw [hlen]), List.drop_of_length_le (by rw [hlen]),
    List.nil_append]
  intro d hd
  rw [List.eq_of_mem_replicate hd]
  rfl

theorem getElem_dirEntries (n : Inode) (disk : Blk → Block) {k : Nat} (hk : k < (n.size / 64).toNat)
    (hk' : k < (dirEntries n disk).length) : (dirEntries n disk)[k] = slotAt n disk k := by
  have hle := entries_le n
  simp only [dirEntries]
  rw [List.getElem_append_left (by rw [List.length_take, List.length_map, List.length_range]; omega),
    List.getElem_take, List.getElem_map, List.getElem_range]

/-! ## The walk -/

section Walking

variable (disk : Blk → Block) (nblocks : Blk)

/-- An entry of a directory: the inode number that is left in it. -/
def followOne (visit : Blk → Blk → Nat → Walk → Option Walk) (ino : Blk) (slot : Nat) (d : SfsDir)
    (w : Walk) : Option (Walk × Blk) :=
  if cstr d.name = dot ∨ cstr d.name = dotdot ∨ d.ino = 0 then some (w, d.ino)
  else if d.ino ∈ w.held disk ∨ nblocks ≤ d.ino then some (w, 0)
  else
    let n := Inode.ofBlock (disk d.ino)
    if n.type = typeFile then some ({ w with nodes := ⟨d.ino, ino, slot, n, []⟩ :: w.nodes }, d.ino)
    else if n.type = typeDir then (visit d.ino ino slot w).map fun w => (w, d.ino)
    else some (w, 0)

/-- The entries of a directory from a slot on. -/
def followAll (visit : Blk → Blk → Nat → Walk → Option Walk) (ino : Blk) :
    Nat → List SfsDir → Walk → Option (Walk × List Blk)
  | _, [], w => some (w, [])
  | slot, d :: rest, w =>
    (followOne disk nblocks visit ino slot d w).bind fun first =>
      (followAll visit ino (slot + 1) rest first.1).map fun others => (others.1, first.2 :: others.2)

/-- A directory, given its entries as the check in memory leaves them. -/
def visitWith (visit : Blk → Blk → Nat → Walk → Option Walk) (ino parent : Blk) (slot : Nat) (w : Walk)
    (c : Checked) (counter : UInt32) : Option Walk :=
  let n := roundSize (.ofBlock (disk ino))
  (followAll disk nblocks visit ino 0 (c.entries.take c.nd)
    ⟨ino :: claimed n disk ++ w.busy, w.nodes, counter⟩).map fun r =>
      ⟨w.busy, ⟨ino, parent, slot, n, r.2⟩ :: r.1.nodes, r.1.counter⟩

/-- A directory and all that is below it. -/
def visit : Nat → Blk → Blk → Nat → Walk → Option Walk
  | 0, _, _, _, _ => none
  | depth + 1, ino, parent, slot, w =>
    let n := roundSize (.ofBlock (disk ino))
    (checkEntries w.counter ino parent (dirEntries n disk) (n.size / 64).toNat).bind fun r =>
      visitWith disk nblocks (visit depth) ino parent slot w r.1 r.2

end Walking

/-! ## What the check leaves on the disk -/

/-- The disk `now` has the inode as the check leaves it. -/
structure Node.Holds (disk now : Blk → Block) (x : Node) : Prop where
  place : ∀ r, (Inode.ofBlock (now x.ino)).blockAt now r = left x.inode disk r
  type : (Inode.ofBlock (now x.ino)).type = x.inode.type
  links : x.inode.type = typeFile → (Inode.ofBlock (now x.ino)).linkcount = x.inode.linkcount
  slots : x.inode.type = typeDir → (slotsOf (.ofBlock (now x.ino)) now).map (·.ino) = x.inos
  size : x.inode.type = typeDir → (Inode.ofBlock (now x.ino)).size.toNat / direntSize ≤ 8 * blocksOf x.inode

theorem left_eq {disk : Blk → Block} (h : left n disk r ≠ 0) :
    left n disk r = n.blockAt disk r := by
  cases r with
  | direct k => rfl
  | indirect => exact if_neg fun hc => h (if_pos hc)
  | entry j => exact if_neg fun hc => h (if_pos hc)

theorem left_mem_claimed {disk : Blk → Block} (hr : r ∈ markedPlaces n)
    (h : left n disk r ≠ 0) : left n disk r ∈ claimed n disk :=
  mem_claimed.mpr ⟨r, hr, (left_eq h).symm, h⟩

theorem placeOf_marked {i : Nat} (h : placeOf i = some r) (hi : i < blocksOf n) :
    r ∈ markedPlaces n := by
  rw [mem_markedPlaces]
  rintro k rfl
  unfold placeOf at h
  split at h
  · cases h
    exact hi
  split at h
  · cases h
  · cases h

theorem Node.Holds.congr {disk now now' : Blk → Block} {x : Node} (h : x.Holds disk now)
    (heq : ∀ b ∈ x.blocks disk, now' b = now b) : x.Holds disk now' := by
  have hino : now' x.ino = now x.ino := heq _ List.mem_cons_self
  have hclaimed : ∀ r ∈ markedPlaces x.inode, left x.inode disk r ≠ 0 →
      now' (left x.inode disk r) = now (left x.inode disk r) :=
    fun r hr h0 => heq _ (List.mem_cons_of_mem _ (left_mem_claimed hr h0))
  have hind : (Inode.ofBlock (now x.ino)).indirect ≠ 0 →
      now' (Inode.ofBlock (now x.ino)).indirect = now (Inode.ofBlock (now x.ino)).indirect := by
    have hind : (Inode.ofBlock (now x.ino)).indirect = left x.inode disk .indirect := h.place .indirect
    rw [hind]
    exact hclaimed .indirect (mem_markedPlaces.mpr nofun)
  have hplace := h.place
  rw [← blockAt_eq_of_indirect hind] at hplace
  refine ⟨by rw [hino]; exact hplace, by rw [hino]; exact h.type, by rw [hino]; exact h.links, fun ht => ?_,
    by rw [hino]; exact h.size⟩
  rw [hino, ← h.slots ht]
  refine congrArg (List.map _) (List.map_congr_left fun k hk => ?_)
  have hk := Nat.lt_of_lt_of_le (List.mem_range.mp hk) (h.size ht)
  rw [show k = 8 * (k / 8) + k % 8 from (Nat.div_add_mod k 8).symm]
  refine slotAt_congr (Nat.mod_lt _ (by decide)) (congrFun (fileBlock_congr hind) _) fun h0 => ?_
  unfold fileBlock at h0 ⊢
  cases hr : placeOf (k / 8) with
  | none =>
    rw [hr] at h0
    exact absurd rfl h0
  | some r =>
    rw [hr, Option.elim_some, h.place] at h0
    rw [Option.elim_some, h.place]
    exact hclaimed r (placeOf_marked hr (by omega)) h0

end Os161.Sfsck
