import Os161.Vfs.Devices

/-!
# Operations on paths

`kern/vfs/vfslookup.c` and `kern/vfs/vfscwd.c`.
-/

namespace Os161.Vfs

open Os161.Lib

variable {W : Type}

/-- `NAME_MAX`. -/
def nameMax : Nat := 255

/-- The kinds of path: relative to the current directory, `device:path`, `/path`, and `:path`. -/
inductive Start where
  | current
  | device (name : Name)
  | boot
  | root
deriving DecidableEq

/-- What `getdevice` makes of a path: where it starts, and the path from there, with the slashes after a
leading `:`, `/` or device name skipped. -/
def splitPath (path : Name) : Start × Name :=
  let front := path.takeWhile fun ch => ch ≠ ':' ∧ ch ≠ '/'
  let rest := path.dropWhile fun ch => ch ≠ ':' ∧ ch ≠ '/'
  match front, rest with
  | [], '/' :: rest => (.boot, rest.dropWhile (· = '/'))
  | [], ':' :: rest => (.root, rest.dropWhile (· = '/'))
  | device, ':' :: rest => (.device device, rest.dropWhile (· = '/'))
  | _, _ => (.current, path)

/-- `vfs_getcurdir`. -/
def vfsGetcurdir : V W (Except Errno Vn) := do
  match (← get).cwd with
  | some v =>
    onCore (vnodeIncref v)
    pure (.ok v)
  | none => pure (.error .ENOENT)

section Calls

variable (ops : Ops W)

/-- The case `:path` of `getdevice`. -/
def currentRoot : V W (Except Errno Vn) := do
  match ← vfsGetcurdir with
  | .error e => pure (.error e)
  | .ok v =>
    match (← get).core.fsOf v with
    | none => throw .nullFs
    | some fs =>
      let root ← onCore (ops.fsopGetroot fs)
      onCore (vnodeDecref ops v)
      pure (.ok root)

/-- The vnode a path starts from, in `getdevice`. -/
def startVnode : Start → V W (Except Errno Vn)
  | .current => vfsGetcurdir
  | .device name => vfsGetroot ops name
  | .boot => do
    match (← get).bootfs with
    | none => pure (.error .ENOENT)
    | some v =>
      onCore (vnodeIncref v)
      pure (.ok v)
  | .root => currentRoot ops

/-- `getdevice`. -/
def getdevice (path : Name) : V W (Except Errno (Name × Vn)) := do
  match ← startVnode ops (splitPath path).1 with
  | .error e => pure (.error e)
  | .ok v => pure (.ok ((splitPath path).2, v))

/-- `vfs_lookup`. -/
def vfsLookup (path : Name) : V W (Except Errno Vn) := do
  onCore vfsBiglockAcquire
  match ← getdevice ops path with
  | .error e =>
    onCore vfsBiglockRelease
    pure (.error e)
  | .ok (subpath, startvn) =>
    if subpath = [] then
      onCore vfsBiglockRelease
      pure (.ok startvn)
    else
      let result ← onCore (vop startvn (ops.vopLookup startvn subpath))
      onCore (vnodeDecref ops startvn)
      onCore vfsBiglockRelease
      pure result

/-! ## The current directory -/

/-- `vfs_setcurdir`. -/
def vfsSetcurdir (dir : Vn) : V W (Except Errno Unit) := do
  match ← onCore (vop dir (ops.vopGettype dir)) with
  | .error e => pure (.error e)
  | .ok false => pure (.error .ENOTDIR)
  | .ok true =>
    onCore (vnodeIncref dir)
    let old := (← get).cwd
    modify fun s => { s with cwd := some dir }
    match old with
    | some v => onCore (vnodeDecref ops v)
    | none => pure ()
    pure (.ok ())

/-- `vfs_chdir`. -/
def vfsChdir (path : Name) : V W (Except Errno Unit) := do
  match ← vfsLookup ops path with
  | .error e => pure (.error e)
  | .ok v =>
    let result ← vfsSetcurdir ops v
    onCore (vnodeDecref ops v)
    pure result

/-- `change_bootfs`. -/
def changeBootfs (newvn : Option Vn) : V W Unit := do
  let old := (← get).bootfs
  modify fun s => { s with bootfs := newvn }
  match old with
  | some v => onCore (vnodeDecref ops v)
  | none => pure ()

end Calls

end Os161.Vfs
