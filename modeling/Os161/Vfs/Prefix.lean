import Os161.Vfs.Paths

/-!
# The prefix of a path

`getdevice` and `vfs_setbootfs` of `kern/vfs/vfslookup.c`, statement by statement: the scan for the first colon
or slash, the device name cut off in place, the two loops over slashes, and the search for a colon in the name of
the boot file system. `Os161.Vfs.getdevice` says what the first does; this is how it does it.
-/

namespace Os161.Vfs

open Os161.Lib

variable {W : Type}

/-- The end of a string. -/
def nul : Char := '\x00'

/-- `path[i]`; behind the string is its end. -/
def charAt (path : Name) (i : Nat) : Char := path.getD i nul

/-- The scan for the first colon or slash, from position `i` on: the values of `slash` and `colon` after it. -/
def locate : Name → Nat → Int × Int
  | [], _ => (-1, -1)
  | ch :: rest, i =>
    if ch = ':' then (-1, i)
    else if ch = '/' then (i, -1)
    else locate rest (i + 1)

/-- `while (path[k+1] == '/') k++`, on what is behind position `k`. -/
def skipSlashes : Name → Nat → Nat
  | ch :: rest, k => if ch = '/' then skipSlashes rest (k + 1) else k
  | [], k => k

/-- What is behind position `k` and the slashes there. -/
def behind (path : Name) (k : Nat) : Name := path.drop (skipSlashes (path.drop (k + 1)) k + 1)

/-- `getdevice`. There is no answer where one of its assertions on the path fails. -/
def getdeviceScan (ops : Ops W) (path : Name) : V W (Option (Except Errno (Name × Vn))) := do
  let slash := (locate path 0).1
  let colon := (locate path 0).2
  if colon < 0 ∧ slash ≠ 0 then
    let startvn ← vfsGetcurdir
    return some (startvn.map fun v => (path, v))
  else if 0 < colon then
    let buf := path.set colon.toNat nul
    let startvn ← vfsGetroot ops (buf.takeWhile (· ≠ nul))
    return some (startvn.map fun v => (behind buf colon.toNat, v))
  else if ¬ (colon = 0 ∨ slash = 0) then return none
  else if charAt path 0 = '/' then
    match (← get).bootfs with
    | none => return some (.error .ENOENT)
    | some v =>
      onCore (vnodeIncref v)
      return some (.ok (behind path 0, v))
  else if charAt path 0 ≠ ':' then return none
  else
    let startvn ← currentRoot ops
    return some (startvn.map fun v => (behind path 0, v))

/-- `strchr`: the text from the first such character on. -/
def strchr : Name → Char → Option Name
  | [], _ => none
  | c :: rest, ch => if c = ch then some (c :: rest) else strchr rest ch

/-- What `vfs_setbootfs` does with the name it is given: the path it changes to, or why it does not. -/
def bootPath (fsname : Name) : Except Errno Name :=
  let tmp := fsname.take (nameMax - 1)
  match strchr tmp ':' with
  | some s => if 0 < s.length then .error .EINVAL else .ok tmp
  | none => .ok (tmp ++ [':'])

/-- `vfs_setbootfs`. -/
def vfsSetbootfsScan (ops : Ops W) (fsname : Name) : V W (Except Errno Unit) := do
  onCore vfsBiglockAcquire
  match bootPath fsname with
  | .error e =>
    onCore vfsBiglockRelease
    pure (.error e)
  | .ok tmp =>
    match ← vfsChdir ops tmp with
    | .error e =>
      onCore vfsBiglockRelease
      pure (.error e)
    | .ok _ =>
      match ← vfsGetcurdir with
      | .error e =>
        onCore vfsBiglockRelease
        pure (.error e)
      | .ok newguy =>
        changeBootfs ops (some newguy)
        onCore vfsBiglockRelease
        pure (.ok ())

end Os161.Vfs
