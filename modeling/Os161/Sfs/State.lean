import Mathlib.Logic.Function.Basic
import Mathlib.Data.List.FinRange
import Os161.Lib.Waiting

/-!
# The state of an SFS volume

The on-disk structures of `kern/include/kern/sfs.h`, the in-memory ones of `kern/include/sfs.h`, the
disk they live on, and the block-level I/O of `kern/fs/sfs/sfs_io.c` and `kern/dev/lamebus/lhd.c`.

A program waits in `lhd_io` only: for the device to be free, and for its own transfer to be done.
`lock_acquire` and `lock_release` are empty in this kernel, so that `vfs_biglock` keeps nobody out and
is not modelled. `kmalloc` never fails here.
-/

namespace Os161.Sfs

open Os161.Lib

/-! ## Blocks and words -/

/-- `SFS_BLOCKSIZE`. -/
abbrev blockSize : Nat := 512

/-- `SFS_NDIRECT`. -/
abbrev ndirect : Nat := 15

/-- `SFS_DBPERIDB`. -/
abbrev dbperidb : Nat := 128

/-- `SFS_NAMELEN`. -/
abbrev nameLen : Nat := 60

/-- `SFS_BLOCKBITS`. -/
abbrev blockBits : Nat := 4096

/-- `sizeof(struct sfs_dir)`. -/
abbrev direntSize : Nat := 64

/-- `SFS_SB_LOCATION`. -/
abbrev sbLocation : UInt32 := 0

/-- `SFS_ROOT_LOCATION`. -/
abbrev rootLocation : UInt32 := 1

/-- `SFS_MAP_LOCATION`. -/
abbrev mapLocation : Nat := 2

/-- A block number, which is also an inode number. -/
abbrev Blk := UInt32

/-- The bytes of a disk block. -/
abbrev Block := Fin 512 → UInt8

/-- A block of zeros. -/
def zeros : Block := fun _ => 0

/-- A byte of a word in memory; the machine is big-endian. -/
def byteOf (w : UInt32) : Nat → UInt8
  | 0 => UInt8.ofNat (w.toNat / 256 / 256 / 256)
  | 1 => UInt8.ofNat (w.toNat / 256 / 256)
  | 2 => UInt8.ofNat (w.toNat / 256)
  | _ => UInt8.ofNat w.toNat

/-- The word four bytes make. -/
def wordOf (b₀ b₁ b₂ b₃ : UInt8) : UInt32 :=
  UInt32.ofNat (((b₀.toNat * 256 + b₁.toNat) * 256 + b₂.toNat) * 256 + b₃.toNat)

/-- The words of a block are written by their numbers. -/
scoped instance neZero_words : NeZero 128 := ⟨by decide⟩

/-- So are the direct blocks of an inode. -/
scoped instance neZero_direct : NeZero 15 := ⟨by decide⟩

/-- A block read as an array of words. -/
def words (b : Block) (j : Fin 128) : UInt32 :=
  wordOf (b ⟨4 * j, by omega⟩) (b ⟨4 * j + 1, by omega⟩) (b ⟨4 * j + 2, by omega⟩)
    (b ⟨4 * j + 3, by omega⟩)

/-- An array of words as a block. -/
def ofWords (f : Fin 128 → UInt32) : Block := fun k => byteOf (f ⟨k / 4, by omega⟩) (k % 4)

/-- Some of the bytes of a block. -/
def slice (b : Block) (skip len : Nat) : List UInt8 :=
  (List.range len).map fun i => if h : skip + i < 512 then b ⟨skip + i, h⟩ else 0

/-- A block with some of its bytes replaced. -/
def splice (b : Block) (skip : Nat) (bytes : List UInt8) : Block := fun k =>
  if skip ≤ k ∧ k < skip + bytes.length then bytes.getD (k - skip) 0 else b k

/-! ## Inodes -/

/-- `SFS_TYPE_INVAL`. -/
abbrev typeInval : UInt16 := 0

/-- `SFS_TYPE_FILE`. -/
abbrev typeFile : UInt16 := 1

/-- `SFS_TYPE_DIR`. -/
abbrev typeDir : UInt16 := 2

/-- `struct sfs_inode`. -/
structure Inode where
  size : UInt32
  type : UInt16
  linkcount : UInt16
  direct : Fin 15 → Blk
  indirect : Blk
  waste : Fin 110 → UInt32

/-- An inode as it is read from its block. -/
def Inode.ofBlock (b : Block) : Inode where
  size := words b 0
  type := UInt16.ofNat ((words b 1).toNat / 256 / 256)
  linkcount := UInt16.ofNat (words b 1).toNat
  direct k := words b ⟨k + 2, by omega⟩
  indirect := words b 17
  waste k := words b ⟨k + 18, by omega⟩

/-- An inode as it is written to its block. -/
def Inode.toBlock (n : Inode) : Block :=
  ofWords fun w =>
    if w.val = 0 then n.size
    else if w.val = 1 then UInt32.ofNat (n.type.toNat * 256 * 256 + n.linkcount.toNat)
    else if h : w.val < 17 then n.direct ⟨w - 2, by omega⟩
    else if h : w.val < 18 then n.indirect
    else n.waste ⟨w - 18, by omega⟩

/-! ## The volume in memory -/

/-- The name of a vnode's block of memory. -/
abbrev Ptr := Nat

/-- The two tables of vnode operations. -/
inductive VnodeOps where
  | file | dir
deriving DecidableEq

/-- `struct sfs_vnode`, with the `struct vnode` in it. -/
structure Vnode where
  refcount : Nat
  opencount : Nat
  ops : VnodeOps
  ino : Blk
  inode : Inode
  dirty : Bool

/-- The disk, and the mounted volume on it. `faults` says of the next transfers whether they fail; a
device whose list is empty does not fail any more. There are no bits of the free map past its end; they
count as set. -/
structure Core where
  dBlocks : Nat
  disk : Blk → Block
  faults : List Bool
  nblocks : Blk
  volname : List UInt8
  freemap : Blk → Bool
  freemapdirty : Bool
  superdirty : Bool
  vnodes : Ptr → Option Vnode
  table : List Ptr
  next : Ptr

/-- The volume with the static buffers of `sfs_bmap`, `sfs_truncate` and `sfs_partialio`, and whether
a transfer is going on. `lost` is a history variable, the blocks of the writes that have failed; the
program does not look at it. -/
structure State extends Core where
  bmapIdbuf : Fin 128 → Blk
  truncIdbuf : Fin 128 → Blk
  iobuf : Block
  lhBusy : Bool
  lost : List Blk := []

/-- The error codes of the file system. -/
inductive Errno where
  | EUNIMP | ENODEV | ENOENT | EEXIST | EINVAL | ENOTDIR | EISDIR | EBUSY | EXDEV | EIO | ENOSPC
  | EFBIG | ENAMETOOLONG | ENOMEM
deriving DecidableEq

/-- The panics and failed assertions: of `sfs_vnode.c`, and then of what it calls. -/
inductive Panic where
  | ballocInvalid | busedRange | blockMarkedFree
  | partialLength | partialWriteHole | blockWriteHole | blockResid
  | ioExtraresid | ioAligned | ioResid
  | readdirShort | writedirShort | writedirSlot | nentriesType | nentriesSize | nameTwice
  | linkcountZero | reclaimRefcount | reclaimNotInPool | removeLinkcount
  | renameDirs | renameRoot | renameType | renameLinkcount | renameRecover | linkOtherFs
  | loadUnallocatedVnode | loadForcetype | loadUnallocated | loadTypeSet | loadInvalidType
  | gettypeInvalid | getroot | readRw | writeRw | namefileRoot
  | deviceEinval | uiomoveRanOut | uiomovezerosRw | bitmapRange | bitmapClear
  | cleanupRefcount | cleanupOpencount | decrefRefcount | decopenOpencount | badPointer | vfs
deriving DecidableEq

open Errno

/-- A function of the file system. -/
abbrev P := Prog State Errno Panic

/-! ## Block I/O -/

/-- Whether the next transfer of the device fails. -/
def nextFault : P Bool := do
  let s ← .read
  match s.faults with
  | [] => pure false
  | failed :: rest =>
    .modify fun s => { s with faults := rest }
    pure failed

/-- `P(lh->lh_clear)`. -/
def lhClear : P Unit := do
  let s ← .read
  if s.lhBusy then
    .waitUntil fun s => !s.lhBusy
    .modify fun s => { s with lhBusy := true }
  else .modify fun s => { s with lhBusy := true }

/-- `V(lh->lh_clear)`. -/
def lhCleared : P Unit := .modify fun s => { s with lhBusy := false }

/-- `lhd_io`, reading the sector `b`. The answer `none` is `EIO`; on `EINVAL` `sfs_rwblock` panics. -/
def lhdRead (b : Blk) : P (Option Block) := do
  let s ← .read
  if s.dBlocks ≤ b.toNat then .panic .deviceEinval
  else
    lhClear
    .waitUntil fun _ => true
    let failed ← nextFault
    let s ← .read
    lhCleared
    pure (if failed then none else some (s.disk b))

/-- `lhd_io`, writing what `src` holds to the sector `b`. It is copied to the device when the device is
free. The answer is whether the transfer was done. -/
def lhdWrite (src : State → Block) (b : Blk) : P Bool := do
  let s ← .read
  if s.dBlocks ≤ b.toNat then .panic .deviceEinval
  else
    lhClear
    let s ← .read
    let data := src s
    .waitUntil fun _ => true
    let failed ← nextFault
    if failed then
      .modify fun s => { s with lost := s.lost ++ [b] }
      lhCleared
      pure false
    else
      .modify fun s => { s with disk := Function.update s.disk b data }
      lhCleared
      pure true

/-- The rounds of `sfs_rwblock` for a read: a transfer that failed is tried again, ten times. -/
def rblockTries : Nat → Blk → P Block
  | 0, b => do
    match ← lhdRead b with
    | some data => pure data
    | none => .err EIO
  | tries + 1, b => do
    match ← lhdRead b with
    | some data => pure data
    | none => rblockTries tries b

/-- `sfs_rblock`. -/
def sfsRblock (b : Blk) : P Block := rblockTries 10 b

/-- `sfs_wblock`. A transfer that failed is tried again, but `lhd_io` has taken the bytes from the `uio`
before it failed: on the second call there is no sector left to transfer, and it returns 0. -/
def sfsWblock (src : State → Block) (b : Blk) : P Unit := do
  let _ ← lhdWrite src b
  pure ()

/-! ## Vnodes in memory -/

/-- Reading through a vnode pointer. -/
def vnode (p : Ptr) : P Vnode := do
  let s ← .read
  match s.vnodes p with
  | none => .panic .badPointer
  | some v => pure v

/-- Writing through a vnode pointer. -/
def setVnode (p : Ptr) (f : Vnode → Vnode) : P Unit :=
  .modify fun s => { s with vnodes := Function.update s.vnodes p ((s.vnodes p).map f) }

/-- A change of the in-memory inode, which marks it dirty. -/
def setInode (p : Ptr) (f : Inode → Inode) : P Unit :=
  setVnode p fun v => { v with inode := f v.inode, dirty := true }

/-- `sfs_sync_inode`. -/
def sfsSyncInode (p : Ptr) : P Unit := do
  let v ← vnode p
  if v.dirty then
    sfsWblock (fun s => ((s.vnodes p).elim zeros fun v => v.inode.toBlock)) v.ino
    setVnode p fun v => { v with dirty := false }
  else pure ()

/-! ## Space allocation -/

/-- `SFS_FS_BITMAPSIZE`. -/
def Core.nbits (c : Core) : Nat := (c.nblocks.toNat + blockBits - 1) / blockBits * blockBits

/-- `bitmap_alloc`, as far as it looks for a bit: the first that is clear. -/
def Core.firstFree (c : Core) : Option Blk :=
  ((List.range c.nbits).find? fun i => !c.freemap (UInt32.ofNat i)).map UInt32.ofNat

/-- `sfs_clearblock`. -/
def sfsClearblock (b : Blk) : P Unit := sfsWblock (fun _ => zeros) b

/-- `sfs_balloc`. -/
def sfsBalloc : P Blk := do
  let s ← .read
  match s.firstFree with
  | none => .err .ENOSPC
  | some b =>
    .modify fun s =>
      { s with freemap := Function.update s.freemap b true, freemapdirty := true }
    if s.nblocks ≤ b then .panic .ballocInvalid
    else
      sfsClearblock b
      pure b

/-- `sfs_bfree`, with `bitmap_unmark`. -/
def sfsBfree (b : Blk) : P Unit := do
  let s ← .read
  .assert .bitmapRange (b.toNat < s.nbits)
  .assert .bitmapClear (s.freemap b)
  .modify fun s =>
    { s with freemap := Function.update s.freemap b false, freemapdirty := true }

/-- `sfs_bused`. -/
def sfsBused (b : Blk) : P Bool := do
  let s ← .read
  if s.nblocks ≤ b then .panic .busedRange else pure (s.freemap b)

end Os161.Sfs
