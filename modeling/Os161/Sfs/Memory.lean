import Os161.Sfs.Vnode

/-!
# Creating a file when memory is short

`sfs_loadvnode`, `sfs_makeobj` and `sfs_creat` of `kern/fs/sfs/sfs_vnode.c`, with the two calls of `kmalloc` that
`sfs_loadvnode` makes: for the vnode, and in `vnodearray_add` when the table has to grow. Either may return `NULL`.
The calls of `sfs_loadvnode` where memory is not short are as before.
-/

namespace Os161.Sfs

open Os161.Lib

/-- Whether there is memory for a vnode, and for a larger table of vnodes. -/
structure Memory where
  vnode : Bool
  table : Bool

/-- There is memory for both. -/
def Memory.enough : Memory := ⟨true, true⟩

/-- The end of `sfs_loadvnode`. When the table cannot grow, the vnode is given up again. -/
def addVnodeWith (m : Memory) (ino : Blk) (inode : Inode) (dirty : Bool) : P Ptr := do
  match opsOf inode.type with
  | none => .panic .loadInvalidType
  | some _ => if m.table then addVnode ino inode dirty else .err .ENOMEM

/-- `sfs_loadvnode`. -/
def sfsLoadvnodeWith (m : Memory) (ino : Blk) (forcetype : UInt16) : P Ptr := do
  let s ← .read
  match ← loadScan ino s.table with
  | some q =>
    .assert .loadForcetype (forcetype = typeInval)
    vopIncref q
    pure q
  | none =>
    if m.vnode then
      let used ← sfsBused ino
      if used then
        let data ← sfsRblock ino
        let inode := Inode.ofBlock data
        if forcetype = typeInval then addVnodeWith m ino inode false
        else
          .assert .loadTypeSet (inode.type = typeInval)
          addVnodeWith m ino { inode with type := forcetype } true
      else .panic .loadUnallocated
    else .err .ENOMEM

/-- `sfs_makeobj`. -/
def sfsMakeobjWith (m : Memory) (type : UInt16) : P Ptr := do
  let ino ← sfsBalloc
  sfsLoadvnodeWith m ino type

/-- `sfs_creat`, when the name is not there. -/
def creatNewWith (m : Memory) (p : Ptr) (name : CStr) : P Ptr := do
  let newguy ← sfsMakeobjWith m typeFile
  let v ← vnode newguy
  match ← (sfsDirLink p name v.ino).attempt with
  | .error e =>
    vopDecref newguy
    .err e
  | .ok _ =>
    setLinkcount newguy (· + 1)
    pure newguy

/-- `sfs_creat`. -/
def sfsCreatWith (m : Memory) (p : Ptr) (name : CStr) (excl : Bool) : P Ptr := do
  match ← sfsDirFindname p name with
  | (some (ino, _), _) => if excl then .err .EEXIST else sfsLoadvnodeWith m ino typeInval
  | (none, _) => creatNewWith m p name

/-! ## With enough memory -/

theorem addVnodeWith_enough (ino : Blk) (inode : Inode) (dirty : Bool) :
    addVnodeWith .enough ino inode dirty = addVnode ino inode dirty := by
  unfold addVnodeWith
  cases hops : opsOf inode.type with
  | none => simp only [addVnode, hops]
  | some ops => rfl

theorem sfsLoadvnodeWith_enough (ino : Blk) (forcetype : UInt16) :
    sfsLoadvnodeWith .enough ino forcetype = sfsLoadvnode ino forcetype := by
  simp only [sfsLoadvnodeWith, sfsLoadvnode, addVnodeWith_enough]
  all_goals rfl

theorem sfsMakeobjWith_enough (type : UInt16) : sfsMakeobjWith .enough type = sfsMakeobj type := by
  simp only [sfsMakeobjWith, sfsMakeobj, sfsLoadvnodeWith_enough]

theorem sfsCreatWith_enough (p : Ptr) (name : CStr) (excl : Bool) :
    sfsCreatWith .enough p name excl = sfsCreat p name excl := by
  simp only [sfsCreatWith, sfsCreat, creatNewWith, creatNew, sfsLoadvnodeWith_enough, sfsMakeobjWith_enough]
  all_goals rfl

end Os161.Sfs
