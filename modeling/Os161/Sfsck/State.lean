import Os161.Lib.Program
import Os161.Sfs.Volume

/-!
# `sfsck`: the disk, the maps and the memory of inodes

The globals of `user/sbin/sfsck/sfsck.c` as built for OS/161 (`NO_REALLOC`, `NO_QSORT`, no byte swapping), the
disk access of `user/sbin/mksfs/disk.c`, `bitmap_mark`, `check_bitmap`, and the memory of inodes. Messages
and the counts that are only printed are left out, and `malloc` finds memory.
-/

namespace Os161.Sfsck

open Os161.Lib Os161.Sfs

/-- `EXIT_UNRECOV`, `EXIT_RECOV` and `EXIT_CLEAN`. -/
abbrev exitUnrecov : Nat := 2

@[inherit_doc exitUnrecov]
abbrev exitRecov : Nat := 1

@[inherit_doc exitUnrecov]
abbrev exitClean : Nat := 0

/-- How the program stops before its end: by `err` or `errx`, at an assertion, at an access outside an
array, or, in the model only, because it has called itself more often than it was given. -/
inductive Halt where
  | exit (code : Nat)
  | assertion
  | wild
  | depth
deriving DecidableEq

/-- `struct inodememory`. -/
structure InodeMemory where
  ino : Blk
  linkcount : UInt32

/-- The disk and the globals. `space` is the number of inodes that the array `inodes` has room for. The lists are
not in the program, and have the latest call first: the inodes that `check_dir` has been called with, the blocks
that `bitmap_mark` has been called with, each with `bitblocks`, and the sizes of the directories whose entries have
been read. -/
structure State where
  size : Nat
  disk : Blk → Block
  badness : Nat
  nblocks : UInt32
  bitblocks : UInt32
  uniquecounter : UInt32
  bitmapdata : Nat → UInt8
  tofreedata : Nat → UInt8
  inodes : Nat → InodeMemory
  ninodes : Nat
  maxinodes : Nat
  space : Nat
  entered : List Blk
  marked : List (Blk × UInt32)
  listed : List UInt32

/-- A function of the program. -/
abbrev F := EStateM Halt State

/-- `setbadness`. -/
def setbadness (code : Nat) : F Unit :=
  modify fun s => { s with badness := max s.badness code }

/-- `if (c) x;` -/
def onlyIf (c : Prop) [Decidable c] (x : F Unit) : F Unit := if c then x else pure ()

/-- `assert`. -/
def assert (c : Prop) [Decidable c] : F Unit := if c then pure () else throw .assertion

/-! ## The disk -/

/-- The sector at `block * BLOCKSIZE`, which is a 32-bit product. -/
def sector (block : Blk) : Blk := UInt32.ofNat (block.toNat * blockSize % 0x100000000 / blockSize)

/-- `diskread`. At the end of the disk it exits with 1. -/
def diskread (block : Blk) : F Block := do
  let s ← get
  if s.size ≤ (sector block).toNat then throw (.exit 1) else pure (s.disk (sector block))

/-- `diskwrite`. -/
def diskwrite (data : Block) (block : Blk) : F Unit := do
  let s ← get
  if s.size ≤ (sector block).toNat then throw (.exit 1)
  else modify fun s => { s with disk := Function.update s.disk (sector block) data }

/-! ## The maps -/

/-- `blockusage_t`. -/
inductive Usage where
  | superblock | bitblock | inode | iblock | dirdata | data | tofree | pastend
deriving DecidableEq

/-- `((uint8_t)1)<<(block%8)`. -/
def mask (block : Blk) : UInt8 := UInt8.ofNat (2 ^ (block.toNat % 8))

/-- A byte of a map replaced. -/
def setByte (map : Nat → UInt8) (index : Nat) (b : UInt8) : Nat → UInt8 := Function.update map index b

/-- `bitmap_mark` for `B_TOFREE`. -/
def markTofree (block : Blk) : F Unit := do
  let s ← get
  let index := block.toNat / 8
  if s.tofreedata index &&& mask block ≠ 0 then pure ()
  else if s.bitmapdata index &&& mask block ≠ 0 then pure ()
  else
    modify fun s =>
      { s with tofreedata := setByte s.tofreedata index (s.tofreedata index ||| mask block) }

/-- `bitmap_mark` for a block in use. -/
def markUsed (block : Blk) : F Unit := do
  let s ← get
  let index := block.toNat / 8
  onlyIf (s.bitmapdata index &&& mask block ≠ 0) (setbadness exitUnrecov)
  modify fun s =>
    { s with
      tofreedata := setByte s.tofreedata index (s.tofreedata index &&& ~~~ mask block)
      bitmapdata := setByte s.bitmapdata index (s.bitmapdata index ||| mask block) }

/-- `bitmap_mark`. The maps have `bitblocks * SFS_BLOCKSIZE` bytes. -/
def bitmapMark (block : Blk) (how : Usage) : F Unit := do
  modify fun s => { s with marked := (block, s.bitblocks) :: s.marked }
  let s ← get
  if s.bitblocks.toNat * blockSize ≤ block.toNat / 8 then throw .wild
  else if how = .tofree then markTofree block
  else markUsed block

/-- `countbits`. -/
def countbits (val : UInt8) : Nat := (List.range 8).countP fun i => val &&& UInt8.ofNat (2 ^ i) ≠ 0

/-- The round of `check_bitmap` for a byte: the byte, whether it has changed, and the bits that were
short and extra. -/
def checkByte (bits found tofree : UInt8) : UInt8 × Bool × Nat × Nat :=
  if bits = found then (bits, false, 0, 0)
  else if bits = found ||| tofree then (found, true, 0, 0)
  else
    let bits := bits &&& ~~~ tofree
    let alloccount := if bits &&& found ≠ found then countbits (found &&& ~~~ bits) else 0
    let freecount := if bits &&& found ≠ bits then countbits (bits &&& ~~~ found) else 0
    (found, true, alloccount, freecount)

/-- The rounds of `check_bitmap` for the bytes of the block `i`. -/
def checkBytes (i : Nat) (bits : Block) (s : State) (j : Fin 512) : UInt8 × Bool × Nat × Nat :=
  checkByte (bits j) (s.bitmapdata (i * blockSize + j)) (s.tofreedata (i * blockSize + j))

/-- No block is marked both ways. -/
def disjointMaps (i : Nat) (s : State) : Bool :=
  (List.finRange 512).all fun j =>
    s.bitmapdata (i * blockSize + j) &&& s.tofreedata (i * blockSize + j) = 0

/-- `bchanged`. -/
def bchanged (round : Fin 512 → UInt8 × Bool × Nat × Nat) : Bool :=
  (List.finRange 512).any fun j => (round j).2.1

/-- `alloccount` and `freecount`, for a block. -/
def counts (round : Fin 512 → UInt8 × Bool × Nat × Nat) : Nat × Nat :=
  (((List.finRange 512).map fun j => (round j).2.2.1).sum,
    ((List.finRange 512).map fun j => (round j).2.2.2).sum)

/-- The block as it is after the rounds. -/
def checkedBlock (round : Fin 512 → UInt8 × Bool × Nat × Nat) : Block := fun j => (round j).1

/-- The round of `check_bitmap` for a block; the answers are the bits that were short and extra. -/
def checkMapBlock (i : Nat) : F (Nat × Nat) := do
  let bits ← diskread (UInt32.ofNat (mapLocation + i))
  let s ← get
  assert (disjointMaps i s)
  onlyIf (bchanged (checkBytes i bits s))
    (diskwrite (checkedBlock (checkBytes i bits s)) (UInt32.ofNat (mapLocation + i)))
  pure (counts (checkBytes i bits s))

/-- The loop of `check_bitmap`. -/
def checkMapBlocks : List Nat → Nat → Nat → F (Nat × Nat)
  | [], alloccount, freecount => pure (alloccount, freecount)
  | i :: rest, alloccount, freecount => do
    let counts ← checkMapBlock i
    checkMapBlocks rest (alloccount + counts.1) (freecount + counts.2)

/-- `check_bitmap`. -/
def checkBitmap : F Unit := do
  let s ← get
  let counts ← checkMapBlocks (List.range s.bitblocks.toNat) 0 0
  onlyIf (0 < counts.1) (setbadness exitRecov)
  onlyIf (0 < counts.2) (setbadness exitRecov)

/-! ## The memory of inodes -/

/-- A new array of inodes: the first `ninodes` bytes of the old one are copied to it. -/
def grown (old : Nat → InodeMemory) (ninodes : Nat) : Nat → InodeMemory := fun k =>
  if 8 * (k + 1) ≤ ninodes then old k else ⟨0, 0⟩

/-- `addmemory`. Neither `ninodes` nor `maxinodes` changes. -/
def addmemory (ino : Blk) (linkcount : UInt32) : F Unit := do
  let s ← get
  assert (s.ninodes ≤ s.maxinodes)
  let inodes := if s.ninodes = s.maxinodes then grown s.inodes s.ninodes else s.inodes
  let space := if s.ninodes = s.maxinodes then (s.maxinodes + 1) * 2 else s.space
  if space ≤ s.ninodes then throw .wild
  else modify fun s => { s with inodes := Function.update inodes s.ninodes ⟨ino, linkcount⟩, space := space }

/-- The entry of the memory for an inode. -/
def State.remembered (s : State) (ino : Blk) : Option Nat :=
  (List.range s.ninodes).find? fun i => (s.inodes i).ino = ino

/-- `remember_dir`: whether the directory is already remembered. -/
def rememberDir (ino : Blk) : F Bool := do
  let s ← get
  match s.remembered ino with
  | some i =>
    assert ((s.inodes i).linkcount = 0)
    pure true
  | none =>
    addmemory ino 0
    pure false

/-- `observe_filelink`. -/
def observeFilelink (ino : Blk) : F Unit := do
  let s ← get
  match s.remembered ino with
  | some i =>
    assert (0 < (s.inodes i).linkcount)
    modify fun s =>
      { s with
        inodes := Function.update s.inodes i ⟨(s.inodes i).ino, (s.inodes i).linkcount + 1⟩ }
  | none =>
    bitmapMark ino .inode
    addmemory ino 1

/-- The round of `adjust_filelinks` for an inode. -/
def adjustFilelink (m : InodeMemory) : F Unit := do
  if m.linkcount = 0 then pure ()
  else
    let sfi := Inode.ofBlock (← diskread m.ino)
    assert (sfi.type = typeFile)
    if sfi.linkcount.toNat ≠ m.linkcount.toNat then
      setbadness exitRecov
      diskwrite { sfi with linkcount := UInt16.ofNat m.linkcount.toNat }.toBlock m.ino
    else pure ()

/-- `adjust_filelinks`. -/
def adjustFilelinks : F Unit := do
  let s ← get
  (List.range s.ninodes).forM fun i => do
    let s ← get
    adjustFilelink (s.inodes i)

end Os161.Sfsck
