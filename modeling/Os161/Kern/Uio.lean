import Os161.Kern.CopyInOut

/-!
# Memory I/O

`uiomove` of `kern/lib/uio.c`: bytes go between a buffer of the kernel and the buffers of a `struct uio`.
-/

namespace Os161.Kern

open Os161.Lib

/-- `enum uio_rw`. -/
inductive UioRw where
  | read
  | write
deriving DecidableEq

/-- `enum uio_seg`. -/
inductive UioSeg where
  | userispace
  | userspace
  | sysspace
deriving DecidableEq

/-- `struct iovec`, with `iov_kbase` or `iov_ubase`. -/
structure Iovec where
  base : Word
  len : Word
deriving DecidableEq

/-- `struct uio`. The length of the list is `uio_iovcnt`. -/
structure Uio where
  iov : List Iovec
  offset : BitVec 64
  resid : Word
  segflg : UioSeg
  rw : UioRw
  space : Option Nat
deriving DecidableEq

/-- The assertions and the panic of `uiomove`, and a look behind the last `struct iovec`. -/
inductive UioPanic where
  | space
  | outOfBuffers
  | wildIovec
deriving DecidableEq

/-- The copy of one piece. -/
def movePiece (ptr base size : Word) (segflg : UioSeg) (rw : UioRw) (m : Memory) : Option CopyError × Memory :=
  match segflg, rw with
  | .sysspace, .read => (none, memmove base ptr size m)
  | .sysspace, .write => (none, memmove ptr base size m)
  | _, .read => copyout ptr base size m
  | _, .write => copyin base ptr size m

/-- What `uiomove` notes down after a piece. -/
def Uio.advance (uio : Uio) (iov : Iovec) (rest : List Iovec) (size : Word) : Uio :=
  { uio with
    iov := { base := iov.base + size, len := iov.len - size } :: rest
    resid := uio.resid - size
    offset := uio.offset + size.setWidth 64 }

/-- The length of the next piece. -/
def pieceSize (n len : Word) : Word := if n < len then n else len

theorem toNat_pieceSize (n len : Word) : (pieceSize n len).toNat = min n.toNat len.toNat := by
  unfold pieceSize
  split <;> simp_all only [BitVec.lt_def] <;> omega

theorem toNat_sub_pieceSize (n len : Word) : (n - pieceSize n len).toNat = n.toNat - min n.toNat len.toNat := by
  rw [BitVec.toNat_sub, toNat_pieceSize]
  have := n.isLt
  omega

/-- The loop of `uiomove`. -/
def uiomoveLoop (ptr n : Word) (uio : Uio) (m : Memory) : Except UioPanic (Option CopyError × Uio × Memory) :=
  if 0 < n ∧ 0 < uio.resid then
    match _ : uio.iov with
    | [] => .error .wildIovec
    | iov :: rest =>
      if _ : pieceSize n iov.len = 0 then
        if rest = [] then .error .outOfBuffers
        else uiomoveLoop ptr n { uio with iov := rest } m
      else
        match movePiece ptr iov.base (pieceSize n iov.len) uio.segflg uio.rw m with
        | (some e, m) => .ok (some e, uio, m)
        | (none, m) =>
          uiomoveLoop (ptr + pieceSize n iov.len) (n - pieceSize n iov.len)
            (uio.advance iov rest (pieceSize n iov.len)) m
  else .ok (none, uio, m)
termination_by uio.iov.length + n.toNat
decreasing_by
  · rename_i hiov _ _
    simp [hiov]
  · rename_i hiov hsize
    have hpos : (pieceSize n iov.len).toNat ≠ 0 := fun h => hsize (BitVec.eq_of_toNat_eq h)
    rw [toNat_pieceSize] at hpos
    rw [toNat_sub_pieceSize, hiov]
    simp only [Uio.advance, List.length_cons]
    omega

/-- `uiomove`, in a thread whose address space is `cur`. -/
def uiomove (cur : Option Nat) (ptr n : Word) (uio : Uio) (m : Memory) :
    Except UioPanic (Option CopyError × Uio × Memory) :=
  if uio.space = if uio.segflg = .sysspace then none else cur then uiomoveLoop ptr n uio m
  else .error .space

end Os161.Kern
