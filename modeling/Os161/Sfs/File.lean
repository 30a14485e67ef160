import Os161.Sfs.State

/-!
# File-level I/O

`sfs_bmap`, `sfs_partialio`, `sfs_blockio`, `sfs_io` and `sfs_truncate` of `kern/fs/sfs/sfs_vnode.c`, and
`uiomove` and `uiomovezeros` of `kern/lib/uio.c`. A `uio` is in kernel space and has one buffer, as every
caller of these functions makes it; offsets are not negative.
-/

namespace Os161.Sfs

open Os161.Lib

/-! ## Block mapping -/

/-- The end of `sfs_bmap`: the block handed back has to be in use. -/
def handBack (block : Blk) : P Blk := do
  if block = 0 then pure block
  else
    let used ← sfsBused block
    if used then pure block else .panic .blockMarkedFree

/-- `sfs_bmap` for a direct block. -/
def bmapDirect (p : Ptr) (fileblock : Fin 15) (doalloc : Bool) : P Blk := do
  let v ← vnode p
  let block := v.inode.direct fileblock
  if block = 0 ∧ doalloc then
    let block ← sfsBalloc
    setInode p fun n => { n with direct := Function.update n.direct fileblock block }
    handBack block
  else handBack block

/-- `sfs_bmap` once the indirect block `idblock` is in its buffer. -/
def bmapEntry (idblock : Blk) (idoff : Fin 128) (doalloc : Bool) : P Blk := do
  let s ← .read
  let block := s.bmapIdbuf idoff
  if block = 0 ∧ doalloc then
    let block ← sfsBalloc
    .modify fun s => { s with bmapIdbuf := Function.update s.bmapIdbuf idoff block }
    sfsWblock (fun s => ofWords s.bmapIdbuf) idblock
    handBack block
  else handBack block

/-- `sfs_bmap` for a block of the indirect block. -/
def bmapIndirect (p : Ptr) (idoff : Fin 128) (doalloc : Bool) : P Blk := do
  let v ← vnode p
  let idblock := v.inode.indirect
  if idblock = 0 then
    if doalloc then
      let idblock ← sfsBalloc
      setInode p fun n => { n with indirect := idblock }
      .modify fun s => { s with bmapIdbuf := fun _ => 0 }
      bmapEntry idblock idoff doalloc
    else pure 0
  else
    let data ← sfsRblock idblock
    .modify fun s => { s with bmapIdbuf := words data }
    bmapEntry idblock idoff doalloc

/-- `sfs_bmap`. -/
def sfsBmap (p : Ptr) (fileblock : Nat) (doalloc : Bool) : P Blk :=
  if h : fileblock < ndirect then bmapDirect p ⟨fileblock, h⟩ doalloc
  else if h : (fileblock - ndirect) / dbperidb > 0 then .err .EFBIG
  else bmapIndirect p ⟨(fileblock - ndirect) % dbperidb, Nat.mod_lt _ (by decide)⟩ doalloc

/-! ## Transfers -/

/-- `enum uio_rw`. -/
inductive UioRw where
  | read | write
deriving DecidableEq

/-- `struct uio`. `iov` is what is left of the buffer, and `done` the part before it. -/
structure Uio where
  rw : UioRw
  offset : Nat
  resid : Nat
  done : List UInt8
  iov : List UInt8

/-- `uio_kinit`. -/
def uioKinit (kbuf : List UInt8) (pos : Nat) (rw : UioRw) : Uio where
  rw := rw
  offset := pos
  resid := kbuf.length
  done := []
  iov := kbuf

/-- The `uio` after `bytes` have gone to, or come from, the front of its buffer. -/
def Uio.advance (u : Uio) (bytes : List UInt8) : Uio :=
  { u with
    offset := u.offset + bytes.length
    resid := u.resid - bytes.length
    done := u.done ++ bytes
    iov := u.iov.drop bytes.length }

/-- `uiomove` between the buffer and `data`. What `data` is afterwards, and the `uio`. -/
def uiomove (data : List UInt8) (u : Uio) : P (List UInt8 × Uio) := do
  if data.length = 0 ∨ u.resid = 0 then pure (data, u)
  else
    let size := min u.iov.length data.length
    if size = 0 then .panic .uiomoveRanOut
    else
      let bytes := match u.rw with
        | .read => data.take size
        | .write => u.iov.take size
      let u := u.advance bytes
      if size < data.length ∧ 0 < u.resid then .panic .uiomoveRanOut
      else pure (bytes ++ data.drop size, u)

/-- The loop of `uiomovezeros`. -/
def uiomovezeros (n : Nat) (u : Uio) : P Uio := do
  if n = 0 then pure u
  else
    let amt := min 16 n
    let (_, u) ← uiomove (List.replicate amt 0) u
    uiomovezeros (n - amt) u
termination_by n

/-- The file block of an offset, as a `uint32_t`. -/
def fileblockOf (offset : Nat) : Nat := offset / blockSize % 0x100000000

/-- The part of `sfs_partialio` that has the block in its buffer. -/
def partialMove (u : Uio) (skipstart len : Nat) (diskblock : Blk) : P Uio := do
  let s ← .read
  let (bytes, u) ← uiomove (slice s.iobuf skipstart len) u
  .modify fun s => { s with iobuf := splice s.iobuf skipstart bytes }
  match u.rw with
  | .read => pure u
  | .write =>
    sfsWblock (fun s => s.iobuf) diskblock
    pure u

/-- `sfs_partialio`. -/
def sfsPartialio (p : Ptr) (u : Uio) (skipstart len : Nat) : P Uio := do
  .assert .partialLength (skipstart + len ≤ blockSize)
  let diskblock ← sfsBmap p (fileblockOf u.offset) (u.rw = .write)
  if diskblock = 0 then
    .assert .partialWriteHole (u.rw = .read)
    .modify fun s => { s with iobuf := zeros }
    partialMove u skipstart len diskblock
  else
    let data ← sfsRblock diskblock
    .modify fun s => { s with iobuf := data }
    partialMove u skipstart len diskblock

/-- `uiomove` with the residue set to `diskres` for the time being. -/
def uiomoveWindow (data : List UInt8) (u : Uio) (diskres : Nat) : P (List UInt8 × Uio) := do
  let (data, moved) ← uiomove data { u with resid := diskres }
  pure (data, { moved with resid := moved.resid + u.resid - diskres })

/-- The device reads the sector into the buffer of the `uio`. -/
def blockRead (u : Uio) (sector : Blk) : P Uio := do
  let data ← sfsRblock sector
  let (_, u) ← uiomoveWindow (slice data 0 blockSize) u blockSize
  pure u

/-- The device writes the sector from the buffer of the `uio`. -/
def blockWrite (u : Uio) (sector : Blk) : P Uio := do
  let (data, u) ← uiomoveWindow (slice zeros 0 blockSize) u blockSize
  sfsWblock (fun _ => splice zeros 0 data) sector
  pure u

/-- The whole-block transfer of `sfs_blockio`: the `uio` is handed to the device with the offset
`diskblock * SFS_BLOCKSIZE` and one block to go, and gets its own back afterwards. -/
def blockMove (u : Uio) (diskblock : Blk) : P Uio := do
  .assert .blockResid (blockSize ≤ u.resid)
  -- `diskblock * SFS_BLOCKSIZE` is a 32-bit product, and the device divides it again.
  let sector := UInt32.ofNat (diskblock.toNat * blockSize % 0x100000000 / blockSize)
  match u.rw with
  | .read => blockRead u sector
  | .write => blockWrite u sector

/-- The device offset `sfs_blockio` computes, `diskblock * SFS_BLOCKSIZE`: a product of two 32-bit
integers. -/
def blockioOffset (diskblock : Blk) : Nat := diskblock.toNat * blockSize % 0x100000000

/-- The device offset `SFSUIO` computes for `sfs_rblock` and `sfs_wblock`,
`((off_t)(block))*SFS_BLOCKSIZE`: a product of 64-bit integers. -/
def sfsuioOffset (block : Blk) : Nat := block.toNat * blockSize

/-- The sector `lhd_io` finds at an offset. -/
def sectorAt (offset : Nat) : Blk := UInt32.ofNat (offset / blockSize)

/-- `sfs_blockio`. -/
def sfsBlockio (p : Ptr) (u : Uio) : P Uio := do
  let diskblock ← sfsBmap p (fileblockOf u.offset) (u.rw = .write)
  if diskblock = 0 then
    .assert .blockWriteHole (u.rw = .read)
    .assert .uiomovezerosRw (u.rw = .read)
    uiomovezeros blockSize u
  else blockMove u diskblock

/-- The loop of `sfs_io` over the whole blocks. -/
def ioBlocks (p : Ptr) : Nat → Uio → P (Option Errno × Uio)
  | 0, u => pure (none, u)
  | nblocks + 1, u => do
    match ← (sfsBlockio p u).attempt with
    | .error e => pure (some e, u)
    | .ok u => ioBlocks p nblocks u

/-- The part of `sfs_io` after the leading partial block. -/
def ioAligned (p : Ptr) (u : Uio) : P (Option Errno × Uio) := do
  if u.resid = 0 then pure (none, u)
  else
    .assert .ioAligned (u.offset % blockSize = 0)
    match ← ioBlocks p (u.resid / blockSize) u with
    | (some e, u) => pure (some e, u)
    | (none, u) =>
      .assert .ioResid (u.resid < blockSize)
      if 0 < u.resid then
        match ← (sfsPartialio p u 0 u.resid).attempt with
        | .error e => pure (some e, u)
        | .ok u => pure (none, u)
      else pure (none, u)

/-- The transfer of `sfs_io`, up to its label `out`. -/
def ioTransfer (p : Ptr) (u : Uio) : P (Option Errno × Uio) := do
  let blkoff := u.offset % blockSize
  if blkoff = 0 then ioAligned p u
  else
    match ← (sfsPartialio p u blkoff (min (blockSize - blkoff) u.resid)).attempt with
    | .error e => pure (some e, u)
    | .ok u => ioAligned p u

/-- `sfs_io`, reading: what is past the end of the file is taken off the residue and put back. -/
def ioRead (p : Ptr) (u : Uio) : P (Option Errno × Uio) := do
  let v ← vnode p
  let size := v.inode.size.toNat
  if size ≤ u.offset then pure (none, u)
  else
    let extraresid := u.offset + u.resid - size
    .assert .ioExtraresid (extraresid = 0 || extraresid < u.resid)
    let (result, u) ← ioTransfer p { u with resid := u.resid - extraresid }
    pure (result, { u with resid := u.resid + extraresid })

/-- `sfs_io`, writing: the size of the file is adjusted at the end. -/
def ioWrite (p : Ptr) (u : Uio) : P (Option Errno × Uio) := do
  let (result, u) ← ioTransfer p u
  let v ← vnode p
  if v.inode.size.toNat < u.offset then
    setInode p fun n => { n with size := UInt32.ofNat u.offset }
    pure (result, u)
  else pure (result, u)

/-- `sfs_io`. The error it returns, if any, and the `uio`. -/
def sfsIo (p : Ptr) (u : Uio) : P (Option Errno × Uio) :=
  match u.rw with
  | .read => ioRead p u
  | .write => ioWrite p u

/-! ## Truncation -/

/-- The loop of `sfs_truncate` over the direct blocks. -/
def truncDirect (p : Ptr) (blocklen : Nat) : List (Fin 15) → P Unit
  | [] => pure ()
  | i :: rest => do
    let v ← vnode p
    let block := v.inode.direct i
    if blocklen ≤ i ∧ block ≠ 0 then
      sfsBfree block
      setInode p fun n => { n with direct := Function.update n.direct i 0 }
      truncDirect p blocklen rest
    else truncDirect p blocklen rest

/-- The loop of `sfs_truncate` over the indirect block in its buffer; the answers are `hasnonzero` and
`iddirty`. -/
def truncEntries (blocklen : Nat) : List (Fin 128) → Bool → Bool → P (Bool × Bool)
  | [], hasnonzero, iddirty => pure (hasnonzero, iddirty)
  | j :: rest, hasnonzero, iddirty => do
    let s ← .read
    let block := s.truncIdbuf j
    if blocklen < ndirect + j ∧ block ≠ 0 then
      sfsBfree block
      .modify fun s => { s with truncIdbuf := Function.update s.truncIdbuf j 0 }
      truncEntries blocklen rest hasnonzero true
    else truncEntries blocklen rest (hasnonzero || block ≠ 0) iddirty

/-- The indirect part of `sfs_truncate`. -/
def truncIndirect (p : Ptr) (blocklen : Nat) : P Unit := do
  let v ← vnode p
  let idblock := v.inode.indirect
  if blocklen < ndirect + dbperidb - 1 ∧ idblock ≠ 0 then
    let data ← sfsRblock idblock
    .modify fun s => { s with truncIdbuf := words data }
    let (hasnonzero, iddirty) ← truncEntries blocklen (List.finRange 128) false false
    if hasnonzero then
      if iddirty then sfsWblock (fun s => ofWords s.truncIdbuf) idblock else pure ()
    else
      sfsBfree idblock
      setInode p fun n => { n with indirect := 0 }
  else pure ()

/-- `sfs_truncate`. -/
def sfsTruncate (p : Ptr) (len : Nat) : P Unit := do
  let blocklen := (len + blockSize - 1) / blockSize % 0x100000000
  truncDirect p blocklen (List.finRange 15)
  truncIndirect p blocklen
  setInode p fun n => { n with size := UInt32.ofNat len }

end Os161.Sfs
