import Os161.Vfs.Vnode

/-!
# The table of devices

`kern/vfs/vfslist.c`: the table `knowndevs` of named devices and what may be mounted on them.
-/

namespace Os161.Vfs

open Os161.Lib Errno

/-- `struct knowndev`. -/
structure KnownDev where
  name : Name
  rawname : Option Name
  device : Option Dev
  vnode : Vn
  fs : Option Fs

/-- The VFS layer: `knowndevs`, the current thread's `t_cwd`, and `bootfs_vnode`. -/
structure VfsState (W : Type) where
  core : Core W
  knowndevs : List KnownDev
  cwd : Option Vn
  bootfs : Option Vn

/-- A section of code of the VFS layer. -/
abbrev V (W : Type) := EStateM Panic (VfsState W)

variable {W α : Type}

/-- A section that concerns vnodes only. -/
def onCore (x : C W α) : V W α := fun s =>
  match x s.core with
  | .ok a c => .ok a { s with core := c }
  | .error e c => .error e { s with core := c }

section Calls

variable (ops : Ops W)

/-- The end of a look at an entry of the table: the device itself is handed back. -/
def deviceVnode (kd : KnownDev) : C W (Except Errno Vn) := do
  unless kd.device.isSome do throw .nullDevice
  vnodeIncref kd.vnode
  pure (.ok kd.vnode)

/-- The loop of `vfs_getroot`. -/
def getrootLoop (devname : Name) : List KnownDev → C W (Except Errno Vn)
  | [] => pure (.error .ENODEV)
  | kd :: rest =>
    match kd.fs with
    | some fs =>
      if kd.name = devname ∨ fs.volname = some devname then do
        let root ← ops.fsopGetroot fs
        pure (.ok root)
      else if kd.rawname = some devname then deviceVnode kd
      else getrootLoop devname rest
    | none =>
      if kd.rawname.isSome ∧ kd.name = devname then pure (.error ENXIO)
      else if kd.name = devname then deviceVnode kd
      else if kd.rawname = some devname then deviceVnode kd
      else getrootLoop devname rest

/-- `vfs_getroot`. -/
def vfsGetroot (devname : Name) : V W (Except Errno Vn) := do
  onCore (getrootLoop ops devname (← get).knowndevs)

/-- `mkrawname`, without its allocation. -/
def mkrawname (name : Name) : Name := name ++ ['r', 'a', 'w']

/-- `samestring`. -/
def samestring (a b : Option Name) : Bool :=
  match a, b with
  | some a, some b => a == b
  | _, _ => false

/-- `samestring3`. -/
def samestring3 (a b c d : Option Name) : Bool :=
  samestring a b || samestring a c || samestring a d

/-- `badnames`. -/
def badnames (table : List KnownDev) (n1 n2 n3 : Option Name) : Bool :=
  table.any fun kd =>
    samestring3 (kd.fs.bind Fs.volname) n1 n2 n3 ||
      (samestring3 kd.rawname n1 n2 n3 || samestring3 (some kd.name) n1 n2 n3)

/-- The end of `vfs_doadd`: the new entry is checked and entered. -/
def enterDev (kd : KnownDev) : V W (Except Errno Unit) := do
  if badnames (← get).knowndevs (some kd.name) kd.rawname (kd.fs.bind Fs.volname) then
    onCore vfsBiglockRelease
    pure (.error .EEXIST)
  else
    let result ← onCore ops.arrayAdd
    match result with
    | .ok _ => modify fun s => { s with knowndevs := s.knowndevs ++ [kd] }
    | .error _ => pure ()
    onCore vfsBiglockRelease
    pure result

/-- The exit `nomem` of `vfs_doadd`. -/
def noMem : V W (Except Errno Unit) := do
  onCore vfsBiglockRelease
  pure (.error .ENOMEM)

/-- The allocation of the raw name, for a mountable device. -/
def allocRawname (mountable : Bool) : C W Bool :=
  if mountable then ops.kmalloc else pure true

/-- `vfs_doadd`. -/
def vfsDoadd (dname : Name) (mountable : Bool) (dev : Option Dev) (fs : Option Fs) :
    V W (Except Errno Unit) := do
  onCore vfsBiglockAcquire
  match ← onCore ops.kmalloc with
  | false => noMem
  | true =>
    match ← onCore (allocRawname ops mountable) with
    | false => noMem
    | true =>
      match ← onCore ops.devCreateVnode with
      | none => noMem
      | some vnode =>
        match ← onCore ops.kmalloc with
        | false => noMem
        | true =>
          enterDev ops
            { name := dname
              rawname := if mountable then some (mkrawname dname) else none
              device := dev
              vnode := vnode
              fs := fs }

/-- `vfs_adddev`. -/
def vfsAdddev (devname : Name) (dev : Dev) (mountable : Bool) : V W (Except Errno Unit) :=
  vfsDoadd ops devname mountable (some dev) none

/-- `vfs_addfs`. -/
def vfsAddfs (devname : Name) (fs : Fs) : V W (Except Errno Unit) :=
  vfsDoadd ops devname false none (some fs)

/-- `findmount`: the position of the first mountable device of that name. -/
def findmount (devname : Name) (table : List KnownDev) : Option Nat :=
  table.findIdx? fun kd => kd.rawname.isSome && kd.name == devname

/-- `kd->kd_fs = fs`. -/
def setFs (i : Nat) (fs : Option Fs) : V W Unit :=
  modify fun s => { s with knowndevs := s.knowndevs.modify i fun kd => { kd with fs := fs } }

/-- `vfs_mount` from where it has found its entry. -/
def mountOn (i : Nat) (kd : KnownDev) (mountfunc : Dev → C W (Except Errno Fs)) :
    V W (Except Errno Unit) := do
  match kd.fs, kd.device with
  | some _, _ =>
    onCore vfsBiglockRelease
    pure (.error .EBUSY)
  | none, none => throw .nullDevice
  | none, some dev =>
    match ← onCore (mountfunc dev) with
    | .error e =>
      onCore vfsBiglockRelease
      pure (.error e)
    | .ok fs =>
      setFs i (some fs)
      onCore vfsBiglockRelease
      pure (.ok ())

/-- `vfs_mount`, with the mount function it is given. -/
def vfsMount (devname : Name) (mountfunc : Dev → C W (Except Errno Fs)) :
    V W (Except Errno Unit) := do
  onCore vfsBiglockAcquire
  let s ← get
  match findmount devname s.knowndevs with
  | none =>
    onCore vfsBiglockRelease
    pure (.error .ENODEV)
  | some i =>
    match s.knowndevs[i]? with
    | none => throw .nullDevice
    | some kd => mountOn i kd mountfunc

/-- The calls of `vfs_unmount` into the file system. -/
def syncUnmount (fs : Fs) : C W (Except Errno Unit) := do
  match ← ops.fsopSync fs with
  | .error e => pure (.error e)
  | .ok _ => ops.fsopUnmount fs

/-- `vfs_unmount` from where it has found its entry. -/
def unmountFrom (i : Nat) (fs : Fs) : V W (Except Errno Unit) := do
  match ← onCore (syncUnmount ops fs) with
  | .error e =>
    onCore vfsBiglockRelease
    pure (.error e)
  | .ok _ =>
    setFs i none
    onCore vfsBiglockRelease
    pure (.ok ())

/-- `vfs_unmount`. -/
def vfsUnmount (devname : Name) : V W (Except Errno Unit) := do
  onCore vfsBiglockAcquire
  let s ← get
  match findmount devname s.knowndevs with
  | none =>
    onCore vfsBiglockRelease
    pure (.error .ENODEV)
  | some i =>
    match (s.knowndevs[i]?).bind KnownDev.fs with
    | none =>
      onCore vfsBiglockRelease
      pure (.error .EINVAL)
    | some fs => unmountFrom ops i fs

end Calls

end Os161.Vfs
