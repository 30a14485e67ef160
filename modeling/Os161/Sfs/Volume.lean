import Os161.Sfs.Vnode

/-!
# Volumes

The image that `user/sbin/mksfs/mksfs.c` writes, `sfs_mapio`, `sfs_sync`, `sfs_unmount` and `sfs_domount`
of `kern/fs/sfs/sfs_fs.c`, and the operations of a mounted volume. The reserved words of the superblock are
left out: they are zero, and `sfs_superdirty` is never set.
-/

namespace Os161.Sfs

open Os161.Lib

/-! ## The free map on the disk -/

/-- A byte of a bitmap. -/
def mapByte (f : Nat → Bool) : UInt8 :=
  UInt8.ofNat ((f 0).toNat + 2 * (f 1).toNat + 4 * (f 2).toNat + 8 * (f 3).toNat + 16 * (f 4).toNat +
    32 * (f 5).toNat + 64 * (f 6).toNat + 128 * (f 7).toNat)

/-- `bitmap_isset` in a byte. -/
def mapBit (b : UInt8) (i : Nat) : Bool := b.toNat / 2 ^ i % 2 = 1

/-- A block of the free map. -/
def mapBlock (freemap : Blk → Bool) (j : Nat) : Block := fun k =>
  mapByte fun i => freemap (UInt32.ofNat (j * blockBits + k * 8 + i))

theorem mapByte_lt (b : Blk) : b.toNat % blockBits / 8 < 512 :=
  Nat.div_lt_of_lt_mul (Nat.mod_lt _ (by decide))

/-- The free map with one of its blocks read from the disk. -/
def withMapBlock (freemap : Blk → Bool) (j : Nat) (data : Block) : Blk → Bool := fun b =>
  if b.toNat / blockBits = j then mapBit (data ⟨b.toNat % blockBits / 8, mapByte_lt b⟩) (b.toNat % 8)
  else freemap b

/-- `SFS_BITBLOCKS`. -/
def bitblocks (nblocks : Nat) : Nat := (nblocks + blockBits - 1) / blockBits

/-- `sfs_mapio` for reading, from the block `j` on. -/
def mapioRead (j : Nat) : Nat → P Unit
  | 0 => pure ()
  | n + 1 => do
    let data ← sfsRblock (UInt32.ofNat (mapLocation + j))
    .modify fun s => { s with freemap := withMapBlock s.freemap j data }
    mapioRead (j + 1) n

/-- `sfs_mapio` for writing, from the block `j` on. -/
def mapioWrite (j : Nat) : Nat → P Unit
  | 0 => pure ()
  | n + 1 => do
    sfsWblock (fun s => mapBlock s.freemap j) (UInt32.ofNat (mapLocation + j))
    mapioWrite (j + 1) n

/-! ## The superblock -/

/-- `SFS_MAGIC`. -/
def sfsMagic : UInt32 := 0xabadf001

/-- `SFS_VOLNAME_SIZE`. -/
abbrev volnameSize : Nat := 32

/-- The superblock, as it is written. -/
def superBlock (nblocks : Blk) (volname : List UInt8) : Block := fun k =>
  if k.val < 4 then byteOf sfsMagic k
  else if k.val < 8 then byteOf nblocks (k - 4)
  else volname.getD (k - 8) 0

/-! ## `mksfs` -/

/-- The bits that `writebitmap` sets, in the order in which it does. -/
def mkBits (fsblocks : Nat) : List Nat :=
  [0, 1] ++ (List.range (bitblocks fsblocks)).map (mapLocation + ·) ++
    List.range' fsblocks (bitblocks fsblocks * blockBits - fsblocks)

/-- The inode that `writerootdir` writes. -/
def rootInode : Inode where
  size := 0
  type := typeDir
  linkcount := 1
  direct _ := 0
  indirect := 0
  waste _ := 0

/-- The blocks of a disk from `b` on, overwritten. -/
def writeFrom (disk : Blk → Block) (b : Nat) (n : Nat) (data : Nat → Block) : Blk → Block := fun b' =>
  if b ≤ b'.toNat ∧ b'.toNat < b + n then data (b'.toNat - b) else disk b'

/-- What `writesuper`, `writerootdir` and `writebitmap` write. -/
def mkImage (volname : List UInt8) (size : Nat) (disk : Blk → Block) : Blk → Block :=
  let disk := Function.update disk sbLocation (superBlock (UInt32.ofNat size) volname)
  let disk := Function.update disk rootLocation rootInode.toBlock
  writeFrom disk mapLocation (bitblocks size) (mapBlock fun b => b.toNat ∈ mkBits size)

/-- `mksfs`, on a device of `size` blocks; `none` when it stops with a message. -/
def mksfs (volname : List UInt8) (size : Nat) (disk : Blk → Block) : Option (Blk → Block) :=
  if volnameSize ≤ volname.length ∨ 58 ∈ volname ∨ 47 ∈ volname ∨ 32 < bitblocks size ∨
      ¬ (mkBits size).Nodup then none
  else some (mkImage volname size disk)

/-! ## `sfs_sync` and `sfs_domount` -/

/-- The loop of `sfs_sync` over the table; what `VOP_FSYNC` returns is dropped. -/
def syncVnodes : List Nat → P Unit
  | [] => pure ()
  | i :: rest => do
    let s ← .read
    match s.table[i]? with
    | none => .panic .badPointer
    | some q =>
      let _ ← (vopFsync q).attempt
      syncVnodes rest

/-- The part of `sfs_sync` for the free map. -/
def syncMap : P Unit := do
  let s ← .read
  if s.freemapdirty then
    mapioWrite 0 (bitblocks s.nblocks.toNat)
    .modify fun s => { s with freemapdirty := false }
  else pure ()

/-- The part of `sfs_sync` for the superblock. -/
def syncSuper : P Unit := do
  let s ← .read
  if s.superdirty then
    sfsWblock (fun s => superBlock s.nblocks s.volname) sbLocation
    .modify fun s => { s with superdirty := false }
  else pure ()

/-- `sfs_sync`. -/
def sfsSync : P Unit := do
  let s ← .read
  syncVnodes (List.range s.table.length)
  syncMap
  syncSuper

/-- `sfs_unmount`; `none` when an assertion fails. -/
def sfsUnmount (s : State) : Option (Except Errno Unit) :=
  if 0 < s.table.length then some (.error .EBUSY)
  else if s.superdirty || s.freemapdirty then none
  else some (.ok ())

/-- `sfs_domount`, once the superblock has been read: the volume is set up, with an empty table of vnodes
and a free map that is then read from the disk. -/
def mountWith (data : Block) : P Unit := do
  let nblocks := words data 1
  .modify fun s =>
    { s with
      nblocks := nblocks
      volname := (slice data 8 (volnameSize - 1)).takeWhile (· ≠ 0)
      vnodes := fun _ => none
      table := []
      freemap := fun b => bitblocks nblocks.toNat * blockBits ≤ b.toNat }
  mapioRead 0 (bitblocks nblocks.toNat)
  .modify fun s => { s with superdirty := false, freemapdirty := false }

/-- `sfs_domount` on the device, which has sectors of `SFS_BLOCKSIZE` bytes. -/
def sfsDomount : P Unit := do
  let data ← sfsRblock sbLocation
  if words data 0 ≠ sfsMagic then .err .EINVAL else mountWith data

/-! ## The operations of a volume -/

/-- The operations of a mounted volume. -/
inductive Op where
  | getroot
  | creat (dir : Ptr) (name : CStr) (excl : Bool)
  | link (dir : Ptr) (name : CStr) (file : Ptr)
  | remove (dir : Ptr) (name : CStr)
  | rename (d1 : Ptr) (n1 : CStr) (d2 : Ptr) (n2 : CStr)
  | lookup (dir : Ptr) (path : CStr)
  | lookparent (dir : Ptr) (path : CStr) (buflen : Nat)
  | read (p : Ptr) (off : Nat) (len : Nat)
  | write (p : Ptr) (off : Nat) (data : List UInt8)
  | truncate (p : Ptr) (len : Nat)
  | fsync (p : Ptr)
  | decref (p : Ptr)
  | sync

/-- What an operation does; its answer is dropped. -/
def Op.prog : Op → P Unit
  | .getroot => do let _ ← sfsGetroot
  | .creat dir name excl => do let _ ← vopCreat dir name excl
  | .link dir name file => vopLink dir name file
  | .remove dir name => vopRemove dir name
  | .rename d1 n1 d2 n2 => vopRename d1 n1 d2 n2
  | .lookup dir path => do let _ ← vopLookup dir path
  | .lookparent dir path buflen => do let _ ← vopLookparent dir path buflen
  | .read p off len => do let _ ← vopRead p (uioKinit (List.replicate len 0) off .read)
  | .write p off data => do let _ ← vopWrite p (uioKinit data off .write)
  | .truncate p len => vopTruncate p len
  | .fsync p => vopFsync p
  | .decref p => vopDecref p
  | .sync => sfsSync

/-- The vnodes an operation is called with. -/
def Op.args : Op → List Ptr
  | .getroot => []
  | .creat dir _ _ => [dir]
  | .link dir _ file => [dir, file]
  | .remove dir _ => [dir]
  | .rename d1 _ d2 _ => [d1, d2]
  | .lookup dir _ => [dir]
  | .lookparent dir _ _ => [dir]
  | .read p _ _ => [p]
  | .write p _ _ => [p]
  | .truncate p _ => [p]
  | .fsync p => [p]
  | .decref p => [p]
  | .sync => []

/-- A caller has a reference to each vnode it calls an operation with. -/
def Op.Allowed (s : State) (op : Op) : Prop := ∀ p ∈ op.args, (s.vnodes p).isSome

instance (s : State) (op : Op) : Decidable (op.Allowed s) := inferInstanceAs (Decidable (∀ p ∈ op.args, _))

end Os161.Sfs
