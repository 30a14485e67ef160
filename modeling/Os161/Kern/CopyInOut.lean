import Os161.Kern.Memory
import Os161.Vm.LoadElf

/-!
# Copies between user memory and the kernel

`kern/vm/copyinout.c`. Faults on user pages are taken to be handled, so that the recovery through `copyfail` is not
needed. Of the two sides of a copy the user's is read by `copyin` and `copyinstr` and written by `copyout` and
`copyoutstr`.
-/

namespace Os161.Kern

open Os161.Lib
open Os161.Vm (copycheck)

/-- The errors of `copyinout.c`. -/
inductive CopyError where
  | EFAULT
  | ENAMETOOLONG
deriving DecidableEq

/-- The common part of `copyin` and `copyout`: `userptr` is checked, and then the bytes are copied. -/
def copyBlock (userptr dst src len : Word) (m : Memory) : Option CopyError × Memory :=
  match copycheck userptr len with
  | .error _ => (some .EFAULT, m)
  | .ok stoplen => if stoplen ≠ len then (some .EFAULT, m) else (none, memcpy dst src len m)

/-- `copyin`. -/
def copyin (usersrc dest len : Word) (m : Memory) : Option CopyError × Memory :=
  copyBlock usersrc dest usersrc len m

/-- `copyout`. -/
def copyout (src userdest len : Word) (m : Memory) : Option CopyError × Memory :=
  copyBlock userdest userdest src len m

/-- The loop of `copystr` from byte `i` on, for `n` more bytes at most: `*gotlen` if it finds the end. -/
def copystrLoop (dest src : Word) : Nat → Nat → Memory → Option Nat × Memory
  | 0, _, m => (none, m)
  | n + 1, i, m =>
    let m := (m.move 1 (offset dest i) (offset src i)).look (offset src i)
    if m.cells (offset src i) = 0 then (some (i + 1), m) else copystrLoop dest src n (i + 1) m

/-- `copystr`, with `*gotlen` where it returns 0. -/
def copystr (dest src maxlen stoplen : Word) (m : Memory) : Except CopyError Nat × Memory :=
  match copystrLoop dest src (min maxlen.toNat stoplen.toNat) 0 m with
  | (some gotlen, m) => (.ok gotlen, m)
  | (none, m) => (if stoplen < maxlen then .error .EFAULT else .error .ENAMETOOLONG, m)

/-- The common part of `copyinstr` and `copyoutstr`. -/
def copyString (userptr dest src len : Word) (m : Memory) : Except CopyError Nat × Memory :=
  match copycheck userptr len with
  | .error _ => (.error .EFAULT, m)
  | .ok stoplen => copystr dest src len stoplen m

/-- `copyinstr`. -/
def copyinstr (usersrc dest len : Word) (m : Memory) : Except CopyError Nat × Memory :=
  copyString usersrc dest usersrc len m

/-- `copyoutstr`. -/
def copyoutstr (src userdest len : Word) (m : Memory) : Except CopyError Nat × Memory :=
  copyString userdest userdest src len m

end Os161.Kern
