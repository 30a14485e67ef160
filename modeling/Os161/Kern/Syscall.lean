import Os161.Kern.Printf
import Os161.Vm.State

/-!
# System calls that print

The dispatcher of `kern/arch/mips/syscall/syscall.c`, `_printint` and `_printstring` of
`kern/syscall/simple_syscalls.c`, and `kprintf`. The locks of `kprintf` and the waits for the console are left out:
`console_send` appends to what has been printed. Faults on user pages are taken to be handled.
-/

namespace Os161.Kern

/-- The registers of `struct trapframe` that `syscall` reads or sets. -/
structure Trapframe where
  v0 : Word
  a0 : Word
  a1 : Word
  a3 : Word
  epc : Word
deriving DecidableEq

/-- What the system calls see: memory, and what has been printed on the console. -/
structure Kernel where
  memory : Memory
  console : List Char

/-- `kprintf`: the number of characters printed. -/
def kprintf (fmt : List Char) (ap : List VaArg) (k : Kernel) : Except PfFault (Word × Kernel) := do
  let pf ← vprintf gather k.console fmt ap k.memory
  pure (pf.charcount, { memory := pf.memory, console := pf.clientdata })

/-- `_printint`. -/
def printint (n : Word) (k : Kernel) : Except PfFault (Word × Kernel) := kprintf ['%', 'd'] [.word n] k

/-- `_printstring`. The number of characters is not used. -/
def printstring (c _numchars : Word) (k : Kernel) : Except PfFault (Word × Kernel) :=
  kprintf ['%', 's', '\n'] [.word c] k

/-- `SYS_PrintInt`. -/
abbrev sysPrintInt : Word := 122

/-- `SYS_PrintString`. -/
abbrev sysPrintString : Word := 123

/-- The other calls of the switch: `SYS__exit`, `SYS___time`, `SYS_reboot`, `SYS_helloworld`, `SYS_threaddemo` and
`SYS_sleepdemo`. -/
def otherCalls : List Word := [3, 113, 119, 121, 124, 125]

/-- `ENOSYS`. -/
abbrev enosys : Word := 1

section Dispatch

variable (others : Trapframe → Kernel → Except PfFault (Word × Kernel))

/-- The switch of `syscall`: `err`. -/
def dispatch (tf : Trapframe) (k : Kernel) : Except PfFault (Word × Kernel) :=
  if tf.v0 = sysPrintInt then printint tf.a0 k
  else if tf.v0 = sysPrintString then printstring tf.a0 tf.a1 k
  else if tf.v0 ∈ otherCalls then others tf k
  else do
    let (_, k) ← kprintf "Unknown syscall %d\n".toList [.word tf.v0] k
    pure (enosys, k)

/-- The registers that a call with the result `err` returns. `retval` is 0 in all of the calls. -/
def Trapframe.finish (tf : Trapframe) (err : Word) : Trapframe :=
  { tf with
    v0 := if err ≠ 0 then err else 0
    a3 := if err ≠ 0 then 1 else 0
    epc := tf.epc + 4 }

/-- `syscall`. -/
def syscall (tf : Trapframe) (k : Kernel) : Except PfFault (Trapframe × Kernel) := do
  let (err, k) ← dispatch others tf k
  pure (tf.finish err, k)

end Dispatch

end Os161.Kern
