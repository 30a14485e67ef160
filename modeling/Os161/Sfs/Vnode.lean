import Os161.Sfs.File

/-!
# Directories and vnodes

The directory I/O, the vnode table and the vnode operations of `kern/fs/sfs/sfs_vnode.c`, and the reference
counts of `kern/vfs/vnode.c`. A name is a C string. There is one volume, so that `vn_fs` is the same for
every vnode; `mode` is ignored by the source and left out.
-/

namespace Os161.Sfs

open Os161.Lib

/-! ## Directory entries -/

/-- A C string: the bytes before the terminating 0. -/
abbrev CStr := { l : List UInt8 // 0 ∉ l }

theorem zero_not_mem_a : (0 : UInt8) ∉ [97] := by decide

/-- `struct sfs_dir`; the name field has `SFS_NAMELEN` bytes. -/
structure SfsDir where
  ino : Blk
  name : List UInt8
deriving DecidableEq

/-- The bytes of an entry. -/
def SfsDir.toBytes (d : SfsDir) : List UInt8 :=
  [byteOf d.ino 0, byteOf d.ino 1, byteOf d.ino 2, byteOf d.ino 3] ++ d.name

/-- An entry from its bytes. -/
def SfsDir.ofBytes : List UInt8 → SfsDir
  | b₀ :: b₁ :: b₂ :: b₃ :: name => ⟨wordOf b₀ b₁ b₂ b₃, name⟩
  | _ => ⟨0, []⟩

/-- The string in a name field, which is terminated at its last byte in any case. -/
def SfsDir.str (d : SfsDir) : List UInt8 := (d.name.take (nameLen - 1)).takeWhile (· ≠ 0)

/-- The entry made by `sfs_dir_link`: zeros, the inode number, and the name by `strcpy`. -/
def SfsDir.link (ino : Blk) (name : CStr) : SfsDir :=
  ⟨ino, name.val ++ List.replicate (nameLen - name.val.length) 0⟩

/-- The entry written by `sfs_dir_unlink`. -/
def SfsDir.empty : SfsDir := ⟨0, List.replicate nameLen 0⟩

/-- `sfs_readdir`. -/
def sfsReaddir (p : Ptr) (slot : Nat) : P SfsDir := do
  match ← sfsIo p (uioKinit (List.replicate direntSize 0) (slot * direntSize) .read) with
  | (some e, _) => .err e
  | (none, u) =>
    if 0 < u.resid then .panic .readdirShort else pure (.ofBytes (u.done ++ u.iov))

/-- `sfs_writedir`. -/
def sfsWritedir (p : Ptr) (sd : SfsDir) (slot : Nat) : P Unit := do
  match ← sfsIo p (uioKinit sd.toBytes (slot * direntSize) .write) with
  | (some e, _) => .err e
  | (none, u) => if 0 < u.resid then .panic .writedirShort else pure ()

/-- `sfs_dir_nentries`. -/
def sfsDirNentries (p : Ptr) : P Nat := do
  let v ← vnode p
  .assert .nentriesType (v.inode.type = typeDir)
  if v.inode.size.toNat % direntSize ≠ 0 then .panic .nentriesSize
  else pure (v.inode.size.toNat / direntSize)

/-- The loop of `sfs_dir_findname` over the slots: the inode number and the slot of the name, and an empty
slot. -/
def findLoop (p : Ptr) (name : CStr) :
    List Nat → Option (Blk × Nat) → Option Nat → P (Option (Blk × Nat) × Option Nat)
  | [], found, emptyslot => pure (found, emptyslot)
  | i :: rest, found, emptyslot => do
    let tsd ← sfsReaddir p i
    if tsd.ino = 0 then findLoop p name rest found (some i)
    else if tsd.str = name.val then
      .assert .nameTwice found.isNone
      findLoop p name rest (some (tsd.ino, i)) emptyslot
    else findLoop p name rest found emptyslot

/-- `sfs_dir_findname`; that nothing is found is `ENOENT`. -/
def sfsDirFindname (p : Ptr) (name : CStr) : P (Option (Blk × Nat) × Option Nat) := do
  let nentries ← sfsDirNentries p
  findLoop p name (List.range nentries) none none

/-- The end of `sfs_dir_link`, with the slot it hands back. -/
def dirEnter (p : Ptr) (name : CStr) (ino : Blk) (slot : Nat) : P Nat := do
  sfsWritedir p (.link ino name) slot
  pure slot

/-- `sfs_dir_link`. -/
def sfsDirLink (p : Ptr) (name : CStr) (ino : Blk) : P Nat := do
  let (found, emptyslot) ← sfsDirFindname p name
  if found.isSome then .err .EEXIST
  else if name.val.length + 1 > nameLen then .err .ENAMETOOLONG
  else
    match emptyslot with
    | some slot => dirEnter p name ino slot
    | none =>
      let slot ← sfsDirNentries p
      dirEnter p name ino slot

/-- `sfs_dir_unlink`. -/
def sfsDirUnlink (p : Ptr) (slot : Nat) : P Unit := sfsWritedir p .empty slot

/-! ## Dispatch

An operation that `sfs_fileops` or `sfs_dirops` does not have returns `ENOTDIR` or `EISDIR`. -/

/-- An operation of directories. -/
def dirOp {α : Type} (p : Ptr) (op : P α) : P α := do
  let v ← vnode p
  match v.ops with
  | .dir => op
  | .file => .err .ENOTDIR

/-- An operation of files. -/
def fileOp {α : Type} (p : Ptr) (op : P α) : P α := do
  let v ← vnode p
  match v.ops with
  | .file => op
  | .dir => .err .EISDIR

/-! ## The vnode table -/

/-- `VOP_INCREF`. -/
def vopIncref (p : Ptr) : P Unit := setVnode p fun v => { v with refcount := v.refcount + 1 }

/-- The search of `sfs_loadvnode` through the table. -/
def loadScan (ino : Blk) : List Ptr → P (Option Ptr)
  | [] => pure none
  | q :: rest => do
    let v ← vnode q
    let used ← sfsBused v.ino
    if used then
      if v.ino = ino then pure (some q) else loadScan ino rest
    else .panic .loadUnallocatedVnode

/-- The table of operations for a type. -/
def opsOf (type : UInt16) : Option VnodeOps :=
  if type = typeFile then some .file else if type = typeDir then some .dir else none

/-- The end of `sfs_loadvnode`: `VOP_INIT`, and the vnode is put into the table. -/
def addVnode (ino : Blk) (inode : Inode) (dirty : Bool) : P Ptr := do
  match opsOf inode.type with
  | none => .panic .loadInvalidType
  | some ops =>
    let s ← .read
    let q := s.next
    .modify fun s =>
      { s with
        vnodes := Function.update s.vnodes q (some ⟨1, 0, ops, ino, inode, dirty⟩)
        table := s.table ++ [q]
        next := q + 1 }
    pure q

/-- `sfs_loadvnode`. -/
def sfsLoadvnode (ino : Blk) (forcetype : UInt16) : P Ptr := do
  let s ← .read
  match ← loadScan ino s.table with
  | some q =>
    .assert .loadForcetype (forcetype = typeInval)
    vopIncref q
    pure q
  | none =>
    let used ← sfsBused ino
    if used then
      let data ← sfsRblock ino
      let inode := Inode.ofBlock data
      if forcetype = typeInval then addVnode ino inode false
      else
        .assert .loadTypeSet (inode.type = typeInval)
        addVnode ino { inode with type := forcetype } true
    else .panic .loadUnallocated

/-- `sfs_lookonce`: the vnode, and the slot of its entry. -/
def sfsLookonce (p : Ptr) (name : CStr) : P (Ptr × Nat) := do
  match ← sfsDirFindname p name with
  | (none, _) => .err .ENOENT
  | (some (ino, slot), _) =>
    let q ← sfsLoadvnode ino typeInval
    let v ← vnode q
    if v.inode.linkcount = 0 then .panic .linkcountZero else pure (q, slot)

/-- `sfs_makeobj`. -/
def sfsMakeobj (type : UInt16) : P Ptr := do
  let ino ← sfsBalloc
  sfsLoadvnode ino type

/-- `VOP_TRUNCATE`. -/
def vopTruncate (p : Ptr) (len : Nat) : P Unit := fileOp p (sfsTruncate p len)

/-- The end of `sfs_reclaim`: the vnode leaves the table, and `VOP_CLEANUP`. -/
def dropVnode (p : Ptr) : P Unit := do
  let s ← .read
  .assert .reclaimNotInPool (p ∈ s.table)
  .modify fun s => { s with table := s.table.erase p }
  let v ← vnode p
  .assert .cleanupRefcount (v.refcount = 1)
  .assert .cleanupOpencount (v.opencount = 0)
  .modify fun s => { s with vnodes := Function.update s.vnodes p none }

/-- `sfs_reclaim` of the last reference, once the blocks of an unlinked file are freed. -/
def reclaimSynced (p : Ptr) : P Unit := do
  sfsSyncInode p
  let v ← vnode p
  if v.inode.linkcount = 0 then
    sfsBfree v.ino
    dropVnode p
  else dropVnode p

/-- `sfs_reclaim`. -/
def sfsReclaim (p : Ptr) : P Unit := do
  let v ← vnode p
  if v.refcount ≠ 1 then
    .assert .reclaimRefcount (1 < v.refcount)
    setVnode p fun v => { v with refcount := v.refcount - 1 }
    .err .EBUSY
  else if v.inode.linkcount = 0 then
    vopTruncate p 0
    reclaimSynced p
  else reclaimSynced p

/-- `VOP_DECREF`. What `sfs_reclaim` returns is printed and forgotten. -/
def vopDecref (p : Ptr) : P Unit := do
  let v ← vnode p
  .assert .decrefRefcount (0 < v.refcount)
  if 1 < v.refcount then setVnode p fun v => { v with refcount := v.refcount - 1 }
  else
    let _ ← (sfsReclaim p).attempt
    pure ()

/-! ## Vnode operations -/

/-- `sfs_read`. -/
def sfsRead (p : Ptr) (u : Uio) : P (Option Errno × Uio) := do
  .assert .readRw (u.rw = .read)
  sfsIo p u

/-- `sfs_write`. -/
def sfsWrite (p : Ptr) (u : Uio) : P (Option Errno × Uio) := do
  .assert .writeRw (u.rw = .write)
  sfsIo p u

/-- A change of a vnode's link count. -/
def setLinkcount (p : Ptr) (f : UInt16 → UInt16) : P Unit :=
  setInode p fun n => { n with linkcount := f n.linkcount }

/-- `sfs_creat`, when the name is not there. -/
def creatNew (p : Ptr) (name : CStr) : P Ptr := do
  let newguy ← sfsMakeobj typeFile
  let v ← vnode newguy
  match ← (sfsDirLink p name v.ino).attempt with
  | .error e =>
    vopDecref newguy
    .err e
  | .ok _ =>
    setLinkcount newguy (· + 1)
    pure newguy

/-- `sfs_creat`. -/
def sfsCreat (p : Ptr) (name : CStr) (excl : Bool) : P Ptr := do
  match ← sfsDirFindname p name with
  | (some (ino, _), _) => if excl then .err .EEXIST else sfsLoadvnode ino typeInval
  | (none, _) => creatNew p name

/-- `sfs_link`. -/
def sfsLink (dir : Ptr) (name : CStr) (file : Ptr) : P Unit := do
  let f ← vnode file
  let _ ← sfsDirLink dir name f.ino
  setLinkcount file (· + 1)

/-- `sfs_remove`. -/
def sfsRemove (dir : Ptr) (name : CStr) : P Unit := do
  let (victim, slot) ← sfsLookonce dir name
  match ← (sfsDirUnlink dir slot).attempt with
  | .error e =>
    vopDecref victim
    .err e
  | .ok _ =>
    let v ← vnode victim
    .assert .removeLinkcount (0 < v.inode.linkcount)
    setLinkcount victim (· - 1)
    vopDecref victim

/-- `sfs_rename` once the file is linked under the new name in `slot2`. -/
def renameUnlink (dir g1 : Ptr) (slot1 slot2 : Nat) : P Unit := do
  match ← (sfsDirUnlink dir slot1).attempt with
  | .ok _ =>
    let v ← vnode g1
    .assert .renameLinkcount (0 < v.inode.linkcount)
    setLinkcount g1 (· - 1)
    vopDecref g1
  | .error e =>
    match ← (sfsDirUnlink dir slot2).attempt with
    | .error _ => .panic .renameRecover
    | .ok _ =>
      setVnode g1 fun v => { v with inode := { v.inode with linkcount := v.inode.linkcount - 1 } }
      vopDecref g1
      .err e

/-- `sfs_rename`. -/
def sfsRename (d1 : Ptr) (n1 : CStr) (d2 : Ptr) (n2 : CStr) : P Unit := do
  .assert .renameDirs (d1 = d2)
  let d ← vnode d1
  .assert .renameRoot (d.ino = rootLocation)
  let (g1, slot1) ← sfsLookonce d1 n1
  let v ← vnode g1
  .assert .renameType (v.inode.type = typeFile)
  match ← (sfsDirLink d1 n2 v.ino).attempt with
  | .error e =>
    vopDecref g1
    .err e
  | .ok slot2 =>
    setLinkcount g1 (· + 1)
    renameUnlink d1 g1 slot1 slot2

/-- `sfs_lookparent`: the directory, with a reference, and the last component of the path. -/
def sfsLookparent (p : Ptr) (path : CStr) (buflen : Nat) : P (Ptr × CStr) := do
  let v ← vnode p
  if v.inode.type ≠ typeDir then .err .ENOTDIR
  else if path.val.length + 1 > buflen then .err .ENAMETOOLONG
  else
    vopIncref p
    pure (p, path)

/-- `sfs_lookup`. -/
def sfsLookup (p : Ptr) (path : CStr) : P Ptr := do
  let v ← vnode p
  if v.inode.type ≠ typeDir then .err .ENOTDIR
  else
    let (q, _) ← sfsLookonce p path
    pure q

/-- `sfs_getroot`. -/
def sfsGetroot : P Ptr := do
  match ← (sfsLoadvnode rootLocation typeInval).attempt with
  | .error _ => .panic .getroot
  | .ok q => pure q

/-! ## The entries of the tables -/

/-- `VOP_READ`. -/
def vopRead (p : Ptr) (u : Uio) : P (Option Errno × Uio) := fileOp p (sfsRead p u)

/-- `VOP_WRITE`. -/
def vopWrite (p : Ptr) (u : Uio) : P (Option Errno × Uio) := fileOp p (sfsWrite p u)

/-- `VOP_FSYNC`. -/
def vopFsync (p : Ptr) : P Unit := sfsSyncInode p

/-- `VOP_CREAT`. -/
def vopCreat (p : Ptr) (name : CStr) (excl : Bool) : P Ptr := dirOp p (sfsCreat p name excl)

/-- `VOP_LINK`. -/
def vopLink (dir : Ptr) (name : CStr) (file : Ptr) : P Unit := dirOp dir (sfsLink dir name file)

/-- `VOP_REMOVE`. -/
def vopRemove (dir : Ptr) (name : CStr) : P Unit := dirOp dir (sfsRemove dir name)

/-- `VOP_RENAME`. -/
def vopRename (d1 : Ptr) (n1 : CStr) (d2 : Ptr) (n2 : CStr) : P Unit := dirOp d1 (sfsRename d1 n1 d2 n2)

/-- `VOP_LOOKUP`. -/
def vopLookup (p : Ptr) (path : CStr) : P Ptr := dirOp p (sfsLookup p path)

/-- `VOP_LOOKPARENT`. -/
def vopLookparent (p : Ptr) (path : CStr) (buflen : Nat) : P (Ptr × CStr) :=
  dirOp p (sfsLookparent p path buflen)

end Os161.Sfs
