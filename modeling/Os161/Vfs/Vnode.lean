import Mathlib.Logic.Function.Basic
import Os161.Lib.Program

/-!
# Vnodes and the big lock

`kern/vfs/vnode.c` and the operations on `vfs_biglock` of `kern/vfs/vfslist.c`, over the interface
through which the VFS layer calls file systems and devices (`struct vnode_ops`, `struct fs`), the mount
functions and the allocator. What is behind the interface keeps its own state, the world.

`lock_acquire` and `lock_release` are empty in this kernel and `lock_do_i_hold` is always true, so that
all there is to the big lock is the counter `vfs_biglock_depth`.
-/

namespace Os161.Vfs

open Os161.Lib

/-- A C string. -/
abbrev Name := List Char

/-- The address of a vnode. -/
abbrev Vn := Nat

/-- The address of a device. -/
abbrev Dev := Nat

/-- A file system. What `FSOP_GETVOLNAME` says is fixed. -/
structure Fs where
  id : Nat
  volname : Option Name
deriving DecidableEq

/-- Error numbers. -/
inductive Errno where
  | EINVAL | ENOENT | ENODEV | ENXIO | EEXIST | EBUSY | ENOMEM | EXDEV | ENOTDIR
  | other (code : Nat)
deriving DecidableEq

/-- The panics and `KASSERT`s of the VFS layer; those of a file system are one. -/
inductive Panic where
  | biglockDepth | refcount | opencount | zeroRefcount | cleanup | nullFs | nullDevice | fileSystem
deriving DecidableEq

/-- The vnodes in memory with `vn_refcount`, `vn_opencount` and `vn_fs`, and the rest of the world. A
vnode that is not in memory has no references. -/
structure Core (W : Type) where
  depth : Nat
  refs : Vn → Nat
  opens : Vn → Nat
  fsOf : Vn → Option Fs
  world : W

/-- A section of code that concerns vnodes. -/
abbrev C (W : Type) := EStateM Panic (Core W)

/-- What the VFS layer calls. The vnode operations that may fail answer with an error number. -/
structure Ops (W : Type) where
  vopOpen : Vn → BitVec 32 → C W (Except Errno Unit)
  vopClose : Vn → C W (Except Errno Unit)
  vopReclaim : Vn → C W (Except Errno Unit)
  vopGettype : Vn → C W (Except Errno Bool)
  vopTruncate : Vn → Nat → C W (Except Errno Unit)
  vopCreat : Vn → Name → Bool → BitVec 32 → C W (Except Errno Vn)
  vopLink : Vn → Name → Vn → C W (Except Errno Unit)
  vopRemove : Vn → Name → C W (Except Errno Unit)
  vopRename : Vn → Name → Vn → Name → C W (Except Errno Unit)
  vopLookup : Vn → Name → C W (Except Errno Vn)
  vopLookparent : Vn → Name → Nat → C W (Except Errno (Vn × Name))
  fsopSync : Fs → C W (Except Errno Unit)
  fsopGetroot : Fs → C W Vn
  fsopUnmount : Fs → C W (Except Errno Unit)
  kmalloc : C W Bool
  devCreateVnode : C W (Option Vn)
  arrayAdd : C W (Except Errno Unit)

variable {W α : Type}

/-- `vfs_biglock_acquire`. -/
def vfsBiglockAcquire : C W Unit :=
  modify fun s => { s with depth := s.depth + 1 }

/-- `vfs_biglock_release`. -/
def vfsBiglockRelease : C W Unit := do
  unless 0 < (← get).depth do throw .biglockDepth
  modify fun s => { s with depth := s.depth - 1 }

/-- `vnode_check`, which every `VOP_` macro calls first. -/
def vnodeCheck (v : Vn) (reclaim : Bool) : C W Unit := do
  vfsBiglockAcquire
  if (← get).refs v = 0 ∧ reclaim = false then throw .zeroRefcount
  vfsBiglockRelease

/-- `__VOP`: an operation of a vnode. -/
def vop (v : Vn) (x : C W α) : C W α := do
  vnodeCheck v false
  x

/-- `vnode_incref`. -/
def vnodeIncref (v : Vn) : C W Unit := do
  vfsBiglockAcquire
  modify fun s => { s with refs := Function.update s.refs v (s.refs v + 1) }
  vfsBiglockRelease

/-- `vnode_incopen`. -/
def vnodeIncopen (v : Vn) : C W Unit := do
  vfsBiglockAcquire
  modify fun s => { s with opens := Function.update s.opens v (s.opens v + 1) }
  vfsBiglockRelease

/-- `vnode_init`. -/
def vnodeInit (v : Vn) (fs : Option Fs) : C W (Except Errno Unit) := do
  modify fun s =>
    { s with
      refs := Function.update s.refs v 1
      opens := Function.update s.opens v 0
      fsOf := Function.update s.fsOf v fs }
  pure (.ok ())

/-- `vnode_cleanup`. -/
def vnodeCleanup (v : Vn) : C W Unit := do
  let s ← get
  unless s.refs v = 1 ∧ s.opens v = 0 do throw .cleanup
  modify fun s =>
    { s with
      refs := Function.update s.refs v 0
      opens := Function.update s.opens v 0
      fsOf := Function.update s.fsOf v none }

/-- `vnode_decref`, of a vnode with a given `vop_reclaim`. -/
def decrefWith (reclaim : C W (Except Errno Unit)) (v : Vn) : C W Unit := do
  vfsBiglockAcquire
  unless 0 < (← get).refs v do throw .refcount
  if 1 < (← get).refs v then
    modify fun s => { s with refs := Function.update s.refs v (s.refs v - 1) }
  else
    vnodeCheck v true
    let _ ← reclaim
  vfsBiglockRelease

section Calls

variable (ops : Ops W)

/-- `vnode_decref`. -/
def vnodeDecref (v : Vn) : C W Unit := decrefWith (ops.vopReclaim v) v

/-- `vnode_decopen`. -/
def vnodeDecopen (v : Vn) : C W Unit := do
  vfsBiglockAcquire
  unless 0 < (← get).opens v do throw .opencount
  modify fun s => { s with opens := Function.update s.opens v (s.opens v - 1) }
  if 0 < (← get).opens v then vfsBiglockRelease
  else
    let _ ← vop v (ops.vopClose v)
    vfsBiglockRelease

end Calls

end Os161.Vfs
