import Mathlib.Data.Fin.VecNotation
import Os161.Lib.Program

/-!
# Physical memory before the VM system, and large kernel blocks

`ram_stealmem` of `kern/arch/mips/vm/ram.c`, `getppages` and `alloc_kpages` of `kern/vm/addrspace.c`, and
`kmalloc` for sizes from `LARGEST_SUBPAGE_SIZE` on. `getppages` holds `stealmem_lock` around the call of
`ram_stealmem`, so a request is one step on the window of free memory.

`paddr_t`, `vaddr_t`, `size_t` and `unsigned long` are 32 bits wide; every sum and product is reduced.
-/

/-- `PAGE_SIZE`. -/
abbrev Os161.Kmalloc.pageSize : Nat := 4096

/-- `LARGEST_SUBPAGE_SIZE`. -/
abbrev Os161.Kmalloc.largestSubpageSize : Nat := 2048

namespace Os161.Ram

open Os161.Kmalloc (pageSize largestSubpageSize)

/-- A result in 32 bits. -/
def wrap32 (n : Nat) : Nat := n % 0x100000000

/-- `MIPS_KSEG0`. -/
abbrev mipsKseg0 : Nat := 0x80000000

/-- `PADDR_TO_KVADDR`. -/
def paddrToKvaddr (pa : Nat) : Nat := wrap32 (pa + mipsKseg0)

/-- An `unsigned long` passed as an `int`. -/
def toInt (n : Nat) : Int := if n < 0x80000000 then n else (n : Int) - 0x100000000

/-- An `int` passed as an `unsigned long`. -/
def toUlong (i : Int) : Nat := (i % 0x100000000).toNat

/-- `firstpaddr` and `lastpaddr`: the memory not handed out yet. -/
structure Window where
  firstpaddr : Nat
  lastpaddr : Nat
deriving DecidableEq

/-- `ram_stealmem`. -/
def ramStealmem (npages : Nat) (w : Window) : Nat × Window :=
  let size := wrap32 (npages * pageSize)
  if wrap32 (w.firstpaddr + size) > w.lastpaddr then (0, w)
  else (w.firstpaddr, { w with firstpaddr := wrap32 (w.firstpaddr + size) })

/-- `getppages`. -/
def getppages (npages : Nat) (w : Window) : Nat × Window := ramStealmem npages w

/-- `alloc_kpages`. -/
def allocKpages (npages : Int) (w : Window) : Nat × Window :=
  let r := getppages (toUlong npages) w
  if r.1 = 0 then (0, r.2) else (paddrToKvaddr r.1, r.2)

/-- `kmalloc` for a size it does not leave to the subpage allocator; `NULL` is 0. -/
def kmallocLarge (sz : Nat) (w : Window) : Nat × Window :=
  let npages := wrap32 (sz + pageSize - 1) / pageSize
  allocKpages (toInt npages) w

/-- Who takes memory out of the window: `kmalloc`, or a caller of `alloc_kpages` such as the subpage
allocator. -/
inductive Request where
  | kmalloc (sz : Nat)
  | kpages (npages : Nat)

/-- A request, carried out. -/
def Request.exec : Request → Window → Nat × Window
  | .kmalloc sz, w => kmallocLarge sz w
  | .kpages npages, w => allocKpages npages w

/-- The bytes asked for. -/
def Request.bytes : Request → Nat
  | .kmalloc sz => sz
  | .kpages npages => npages * pageSize

/-- A `size_t` for `kmalloc`; fewer pages than there are addresses for `alloc_kpages`. -/
def Request.Allowed : Request → Prop
  | .kmalloc sz => largestSubpageSize ≤ sz ∧ sz < 0x100000000
  | .kpages npages => 0 < npages ∧ npages < 0x100000

/-- The blocks a sequence of requests is handed: address and bytes asked for. -/
def blocks : List Request → Window → List (Nat × Nat)
  | [], _ => []
  | r :: rs, w =>
    if (r.exec w).1 = 0 then blocks rs (r.exec w).2
    else ((r.exec w).1, r.bytes) :: blocks rs (r.exec w).2

/-- The window `ram_bootstrap` sets up, or any smaller one. -/
structure Window.Valid (w : Window) : Prop where
  ordered : w.firstpaddr ≤ w.lastpaddr
  installed : w.lastpaddr ≤ 508 * 1024 * 1024

end Os161.Ram
