import Os161.Sfsck.State
import Os161.Sfsck.Entries

/-!
# `sfsck`: the check

`check_sb`, `check_inode_blocks`, `check_dir`, `check_root_dir` and `main` of `user/sbin/sfsck/sfsck.c`. An inode
has one indirect block, so that `check_indirect_block` and `ibmap` never call themselves; `pathsofar` is for
messages only and is left out.
-/

namespace Os161.Sfsck

open Os161.Lib Os161.Sfs

/-! ## The superblock -/

/-- The volume name in a superblock. -/
def superVolname (b : Block) : List UInt8 := slice b 8 volnameSize

/-- `checknullstring`, for the volume name. -/
def checkVolnull (buf : List UInt8) : List UInt8 × Bool :=
  if 0 ∈ buf then (buf, false) else (buf.set (volnameSize - 1) 0, true)

/-- The loop of `check_sb` over the blocks past the end of the volume, and the one over the free map. -/
def markAll (how : Usage) : List Nat → F Unit
  | [] => pure ()
  | b :: rest => do
    bitmapMark (UInt32.ofNat b) how
    markAll how rest

/-- The part of `check_sb` for the volume name. -/
def checkVolname (sp : Block) : F Unit := do
  let ended := checkVolnull (superVolname sp)
  let good := checkbadstring ended.1
  onlyIf (ended.2 || good.2) do
    setbadness exitRecov
    diskwrite (splice sp 8 good.1) sbLocation

/-- `SFS_BITBLOCKS`, in 32 bits. -/
def bitblocks32 (nblocks : UInt32) : UInt32 := (nblocks + 4096 - 1) / 4096 * 4096 / 4096

/-- `check_sb`, once the superblock is known to be one. -/
def checkSbWith (sp : Block) : F Unit := do
  let nblocks := words sp 1
  let bitblocks := bitblocks32 nblocks
  if nblocks = 0 ∨ bitblocks = 0 then throw .assertion
  else
    modify fun s =>
      { s with
        nblocks := nblocks
        bitblocks := bitblocks
        bitmapdata := fun _ => 0
        tofreedata := fun _ => 0 }
    markAll .pastend (List.range' nblocks.toNat (bitblocks.toNat * blockBits - nblocks.toNat))
    checkVolname sp
    bitmapMark sbLocation .superblock
    markAll .bitblock (List.range' mapLocation bitblocks.toNat)

/-- `check_sb`. -/
def checkSb : F Unit := do
  let sp ← diskread sbLocation
  if words sp 0 ≠ sfsMagic then throw (.exit exitUnrecov) else checkSbWith sp

/-! ## The blocks of an inode -/

/-- What a data block is used as. -/
def dataUsage (isdir : Bool) : Usage := if isdir then .dirdata else .data

/-- The number of blocks of a file, in 32 bits. -/
def fileBlocks (size : UInt32) : UInt32 := (size + 512 - 1) / 512 * 512 / 512

/-- A block of an inode, where there is one, is marked. -/
def markBlock (block : Blk) (how : Usage) : F Unit :=
  if block ≠ 0 then bitmapMark block how else pure ()

/-- The loop over the direct blocks; the answer is `badcount`. -/
def checkDirect (n : Inode) (nblocks : UInt32) (isdir : Bool) : List (Fin 15) → Nat → F Nat
  | [], badcount => pure badcount
  | k :: rest, badcount => do
    if k.val < nblocks.toNat then
      markBlock (n.direct k) (dataUsage isdir)
      checkDirect n nblocks isdir rest badcount
    else
      markBlock (n.direct k) .tofree
      checkDirect n nblocks isdir rest (if n.direct k ≠ 0 then badcount + 1 else badcount)

/-- The loop over the entries of the indirect block; the answers are the entries and `badcount`. -/
def checkIndirEntries (nblocks : UInt32) (isdir : Bool) :
    List (Fin 128) → (Fin 128 → Blk) → Nat → F ((Fin 128 → Blk) × Nat)
  | [], entries, badcount => pure (entries, badcount)
  | j :: rest, entries, badcount => do
    markBlock (entries j) (dataUsage isdir)
    if ndirect + j.val < nblocks.toNat then checkIndirEntries nblocks isdir rest entries badcount
    else
      checkIndirEntries nblocks isdir rest (Function.update entries j 0)
        (if entries j ≠ 0 then badcount + 1 else badcount)

/-- The entries of the indirect block. -/
def readIndirect (ientry : Blk) : F (Fin 128 → Blk) := do
  if ientry ≠ 0 then
    let data ← diskread ientry
    bitmapMark ientry .iblock
    pure (words data)
  else pure fun _ => 0

/-- The end of `check_indirect_block`. -/
def finishIndirect (ientry : Blk) (entries : Fin 128 → Blk) (badcount : Nat) : F (Blk × Nat) := do
  if (List.finRange 128).all fun j => entries j = 0 then
    if ientry ≠ 0 then
      bitmapMark ientry .tofree
      pure (0, badcount + 1)
    else pure (ientry, badcount)
  else if ientry = 0 then throw .assertion
  else if 0 < badcount then
    diskwrite (ofWords entries) ientry
    pure (ientry, badcount)
  else pure (ientry, badcount)

/-- `check_indirect_block`: the indirect block that is left, and `badcount`. -/
def checkIndirectBlock (ientry : Blk) (nblocks : UInt32) (badcount : Nat) (isdir : Bool) :
    F (Blk × Nat) := do
  let entries ← readIndirect ientry
  let checked ← checkIndirEntries nblocks isdir (List.finRange 128) entries badcount
  finishIndirect ientry checked.1 checked.2

/-- `check_inode_blocks`: the inode, and whether it was modified. -/
def checkInodeBlocks (n : Inode) (isdir : Bool) : F (Inode × Bool) := do
  let nblocks := fileBlocks n.size
  let badcount ← checkDirect n nblocks isdir (List.finRange 15) 0
  let indirect ← checkIndirectBlock n.indirect nblocks badcount isdir
  onlyIf (0 < indirect.2) (setbadness exitRecov)
  pure ({ n with indirect := indirect.1 }, 0 < indirect.2)

/-! ## The blocks of a directory -/

/-- `dobmap`, with `ibmap`. -/
def dobmap (n : Inode) (fileblock : Nat) : F Blk := do
  if h : fileblock < ndirect then pure (n.direct ⟨fileblock, h⟩)
  else if h : fileblock - ndirect < dbperidb then
    if n.indirect = 0 then pure 0
    else
      let data ← diskread n.indirect
      pure (words data ⟨fileblock - ndirect, h⟩)
  else pure 0

/-- The entries in a block. -/
def entriesOf (b : Block) : List SfsDir :=
  (List.range 8).map fun j => .ofBytes (slice b (direntSize * j) direntSize)

/-- The block of some entries. -/
def blockOf (entries : List SfsDir) : Block := splice zeros 0 (entries.flatMap SfsDir.toBytes)

/-- `dirread`, from the file block `i` on. -/
def dirread (n : Inode) (i : Nat) : Nat → F (List SfsDir)
  | 0 => pure []
  | nblocks + 1 => do
    let block ← dobmap n i
    if block ≠ 0 then
      let data ← diskread block
      let rest ← dirread n (i + 1) nblocks
      pure (entriesOf data ++ rest)
    else
      let rest ← dirread n (i + 1) nblocks
      pure (List.replicate 8 .empty ++ rest)

/-- `dirwrite`, from the file block `i` on. -/
def dirwrite (n : Inode) (i : Nat) : Nat → List SfsDir → F Unit
  | 0, _ => pure ()
  | nblocks + 1, entries => do
    let block ← dobmap n i
    if block ≠ 0 then
      diskwrite (blockOf (entries.take 8)) block
      dirwrite n (i + 1) nblocks (entries.drop 8)
    else
      onlyIf (∃ d ∈ entries.take 8, d.ino ≠ 0 ∨ d.name.headD 0 ≠ 0) (setbadness exitUnrecov)
      dirwrite n (i + 1) nblocks (entries.drop 8)

/-! ## Directories -/

/-- The size of a directory is made a multiple of the size of an entry. -/
def checkSize (n : Inode) : F (Inode × Bool) := do
  if n.size % 64 ≠ 0 then
    setbadness exitRecov
    pure ({ n with size := (n.size + 64 - 1) / 64 * 64 }, true)
  else pure (n, false)

/-- `maxdirentries`; the macro multiplies by 512 before it divides by 64. -/
def maxEntries (nd : UInt32) : UInt32 := (nd + 512 / 64 - 1) / (512 / 64) * 512 / 64

/-- The entries of a directory, and room for more in its last block. -/
def readEntries (n : Inode) : F (List SfsDir) := do
  modify fun s => { s with listed := n.size :: s.listed }
  let nd := n.size / 64
  let nblocks := ((nd + 8 - 1) / 8 * 8 / 8).toNat
  -- the array has room for `maxdirentries` entries
  if (maxEntries nd).toNat < 8 * nblocks then throw .wild
  else
    let entries ← dirread n 0 nblocks
    pure (entries.take nd.toNat ++ List.replicate (entries.length - nd.toNat) .empty)

/-- The entries are checked by themselves. -/
def checkInMemory (ino parentino : Blk) (entries : List SfsDir) (nd : Nat) : F Checked := do
  let s ← get
  match checkEntries s.uniquecounter ino parentino entries nd with
  | none => throw .assertion
  | some (c, uniquecounter) =>
    modify fun s => { s with uniquecounter := uniquecounter }
    onlyIf c.changed (setbadness exitRecov)
    onlyIf c.full (setbadness exitUnrecov)
    pure c

/-- A file below a directory. -/
def checkFile (ino : Blk) (n : Inode) : F Unit := do
  let blocks ← checkInodeBlocks n false
  onlyIf blocks.2 (diskwrite blocks.1.toBlock ino)
  observeFilelink ino

/-- What becomes of an entry of a directory: the entry, whether it is a subdirectory, and whether it has
changed. -/
def followEntry (checkDir : Blk → Blk → F Bool) (ino : Blk) (d : SfsDir) : F (SfsDir × Bool × Bool) := do
  if cstr d.name = dot ∨ cstr d.name = dotdot ∨ d.ino = 0 then pure (d, false, false)
  else
    let n := Inode.ofBlock (← diskread d.ino)
    if n.type = typeFile then
      checkFile d.ino n
      pure (d, false, false)
    else if n.type = typeDir then
      if ← checkDir d.ino ino then
        setbadness exitRecov
        pure (⟨0, d.name.set 0 0⟩, false, true)
      else pure (d, true, false)
    else
      setbadness exitRecov
      pure (⟨0, d.name.set 0 0⟩, false, true)

/-- The loop over the entries: the entries, `subdircount`, and whether any has changed. -/
def followEntries (checkDir : Blk → Blk → F Bool) (ino : Blk) :
    List SfsDir → F (List SfsDir × Nat × Bool)
  | [] => pure ([], 0, false)
  | d :: rest => do
    let first ← followEntry checkDir ino d
    let others ← followEntries checkDir ino rest
    pure (first.1 :: others.1, first.2.1.toNat + others.2.1, first.2.2 || others.2.2)

/-- The link count of a directory. -/
def checkLinkcount (n : Inode) (subdircount : Nat) : F (Inode × Bool) := do
  if n.linkcount.toNat ≠ subdircount + 2 then
    setbadness exitRecov
    pure ({ n with linkcount := UInt16.ofNat (subdircount + 2) }, true)
  else pure (n, false)

/-- The end of `check_dir`: what has changed is written. -/
def writeBack (ino : Blk) (n : Inode) (entries : List SfsDir) (nd : Nat) (ichanged dchanged : Bool) :
    F Unit := do
  onlyIf dchanged (dirwrite n 0 ((nd + 7) / 8) entries)
  onlyIf ichanged (diskwrite n.toBlock ino)

/-- `check_dir` from where the entries are in memory and checked. -/
def checkOnDisk (checkDir : Blk → Blk → F Bool) (ino : Blk) (n : Inode) (ichanged : Bool)
    (c : Checked) : F Unit := do
  let followed ← followEntries checkDir ino (c.entries.take c.nd)
  let grown := UInt32.ofNat (direntSize * (c.nd - (n.size / 64).toNat))
  let counted ← checkLinkcount { n with size := n.size + grown } followed.2.1
  writeBack ino counted.1 (followed.1 ++ c.entries.drop c.nd) c.nd
    (ichanged || grown ≠ 0 || counted.2) (c.changed || followed.2.2)

/-- `check_dir` of a directory that is not yet remembered. -/
def checkNewDir (checkDir : Blk → Blk → F Bool) (ino parentino : Blk) (n : Inode) : F Unit := do
  bitmapMark ino .inode
  let sized ← checkSize n
  let blocks ← checkInodeBlocks sized.1 true
  let entries ← readEntries blocks.1
  let c ← checkInMemory ino parentino entries (blocks.1.size / 64).toNat
  checkOnDisk checkDir ino blocks.1 (sized.2 || blocks.2) c

/-- `check_dir`; the answer is whether the directory was already remembered. The first argument bounds how
deep it calls itself. -/
def checkDir : Nat → Blk → Blk → F Bool
  | 0, _, _ => throw .depth
  | depth + 1, ino, parentino => do
    modify fun s => { s with entered := ino :: s.entered }
    let n := Inode.ofBlock (← diskread ino)
    if ← rememberDir ino then pure true
    else
      checkNewDir (checkDir depth) ino parentino n
      pure false

/-- The root is made a directory. -/
def fixRoot (n : Inode) : F Unit :=
  onlyIf (n.type ≠ typeDir) do
    setbadness exitRecov
    diskwrite { n with type := typeDir }.toBlock rootLocation

/-- `check_root_dir`. -/
def checkRootDir (depth : Nat) : F Unit := do
  let n := Inode.ofBlock (← diskread rootLocation)
  fixRoot n
  let _ ← checkDir depth rootLocation rootLocation

/-- `main`, on a disk that has been opened; the answer is the exit code. -/
def main (depth : Nat) : F Nat := do
  checkSb
  checkRootDir depth
  checkBitmap
  adjustFilelinks
  let s ← get
  pure s.badness

/-! ## Images -/

/-- A disk image. Its size in bytes is less than 2^32, as the offsets of the program are. -/
structure Image where
  size : Nat
  disk : Blk → Block
  small : size * blockSize ≤ 0x100000000

/-- The state in which the program starts. -/
def Image.start (img : Image) : State where
  size := img.size
  disk := img.disk
  badness := 0
  nblocks := 0
  bitblocks := 0
  uniquecounter := 1
  bitmapdata _ := 0
  tofreedata _ := 0
  inodes _ := ⟨0, 0⟩
  ninodes := 0
  maxinodes := 0
  space := 0
  entered := []
  marked := []
  listed := []

end Os161.Sfsck
