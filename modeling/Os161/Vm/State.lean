import Mathlib.Logic.Function.Basic
import Mathlib.Data.List.FinRange
import Os161.Lib.Program

/-!
# The state of the virtual memory system

The data of `kern/include/addrspace.h`, the globals of `kern/vm/addrspace.c` and
`kern/vm/swapspace.c`, the TLB of `kern/arch/mips/include/tlb.h`, and the memories the code moves
pages between. Machine words are `BitVec 32`, so every sum and difference wraps as the code's does.

Kernel pointers name heap blocks. An address space is reached through its pointer, because the
frame table stores that pointer; a level-2 table is owned by the one slot that points to it and is
kept there by value. `NULL` is `none`.

What the code leaves uninitialised (a fresh heap block, the swap table before `swapspace_init`) is
data of the state and may be anything.
-/

namespace Os161.Vm

open Os161.Lib

/-! ## Words, addresses and constants -/

/-- `vaddr_t`. -/
abbrev Vaddr := BitVec 32

/-- `paddr_t`. -/
abbrev Paddr := BitVec 32

/-- A kernel pointer: the name of a heap block. -/
abbrev Ptr := Nat

/-- `MAX_PM_SIZE`. -/
abbrev maxPmSize : Nat := 30

/-- The rows of the frame table are written by their numbers. -/
scoped instance : NeZero maxPmSize := ⟨by decide⟩

/-- `MAX_LEVEL1_PT`. -/
abbrev maxLevel1Pt : Nat := 4096

/-- `MAX_LEVEL2_PT`. -/
abbrev maxLevel2Pt : Nat := 256

/-- `CLOCK_ANGLE`. -/
abbrev clockAngle : Nat := 8

/-- `PAGE_SIZE`. -/
abbrev pageSize : BitVec 32 := 4096#32

/-- `PAGE_FRAME`, the mask of the page number. -/
abbrev pageFrame : BitVec 32 := 0xfffff000#32

/-- `OFFSET_MASK`, the mask of the offset in a page. -/
abbrev offsetMask : BitVec 32 := 0x00000fff#32

/-- `USERSPACETOP`, the first address that is not a user address. -/
abbrev userspaceTop : Vaddr := 0x80000000#32

/-- `USERSTACK`. -/
abbrev userstack : Vaddr := userspaceTop

/-- `INIT_STACKPAGES`. -/
abbrev initStackpages : Nat := 12

/-- `PHYSICAL_STACKPAGES`. -/
abbrev physicalStackpages : Nat := 1

/-- `PHYSICAL_SEG2PAGES`. -/
abbrev physicalSeg2pages : Nat := 1

/-- `SWAP_TEST`. -/
abbrev swapTest : Bool := true

/-- `NUM_TLB`. -/
abbrev numTlb : Nat := 64

/-- `LEVEL1INDEX`, as an index of the level-1 table. -/
def level1index (x : Vaddr) : Fin maxLevel1Pt :=
  ⟨((x &&& 0xfff00000#32) >>> 20).toNat, by
    have h := (x &&& 0xfff00000#32).isLt
    simp only [BitVec.toNat_ushiftRight, Nat.shiftRight_eq_div_pow, maxLevel1Pt]
    omega⟩

/-- `LEVEL2INDEX`, as an index of a level-2 table. -/
def level2index (x : Vaddr) : Fin maxLevel2Pt :=
  ⟨((x &&& 0x000ff000#32) >>> 12).toNat, by
    have h : (x &&& 0x000ff000#32).toNat ≤ 0x000ff000 := by
      simpa using Nat.and_le_right (n := x.toNat) (m := 0x000ff000)
    simp only [BitVec.toNat_ushiftRight, Nat.shiftRight_eq_div_pow, maxLevel2Pt]
    omega⟩

/-! ## Tables -/

/-- `page_table_entry`: a slot of a level-2 table, a row of the frame table, or a swap slot. -/
structure PageTableEntry where
  virtualAddr : Vaddr
  physicalAddr : Paddr
  validBit : Bool
  dirtyBit : Bool
  refBit : Bool
  pid : Int
  counter : Int
  pSpace : Option Ptr
deriving DecidableEq, Inhabited

/-- `page_table_level2`, with the address of the block it lives in. Its `size` field is counted up
and never read; it is left out. -/
structure PageTableLevel2 where
  block : Ptr
  table : Fin maxLevel2Pt → PageTableEntry

/-- `addrspace`. -/
structure AddrSpace where
  vbase1 : Vaddr
  npages1 : BitVec 32
  vbase2 : Vaddr
  npages2 : BitVec 32
  pid : Int
  size : Int
  table : Fin maxLevel1Pt → Option PageTableLevel2
  stackpbase : Vaddr
  stacknpages : BitVec 32

/-- A slot of the TLB: `entryhi` and `entrylo`. -/
structure TlbEntry where
  hi : BitVec 32
  lo : BitVec 32
deriving DecidableEq

/-- The kernel heap, as the memory system sees it: the blocks in use, which block `kmalloc` answers
with, and what a block holds before anyone writes to it. `kmalloc` never answers with a block in
use; it may answer with one that was freed, or with `NULL`. -/
structure KHeap where
  live : List Ptr
  pick : List Ptr → Option Ptr
  fresh : ∀ blocks p, pick blocks = some p → p ∉ blocks
  junk : Ptr → Nat → BitVec 32

/-- The globals of the memory system, the current thread's address space, physical memory, and the
swap file. `handedOut` is a history variable: the frame addresses `virtual_alloc_kpages` has
returned so far. No function reads it. -/
structure VmState where
  spaces : Ptr → Option AddrSpace
  heap : KHeap
  pft : Fin maxPmSize → PageTableEntry
  physicalBaseAddr : Paddr
  clockHand : Nat
  epHand : Nat
  rpHand : Nat
  cntPageRepl : Nat
  swapspace : List PageTableEntry
  swapInsertions : Nat
  tlb : Fin numTlb → TlbEntry
  lastTlbEntry : Nat
  numVmFaults : Nat
  curAddrspace : Option Ptr
  ram : Paddr → UInt8
  swapFile : Int → UInt8
  handedOut : List Paddr

/-! ## How an operation stops -/

/-- The `KASSERT`s of the modelled functions. -/
inductive Assertion where
  | vbase1 | npages1 | vbase2 | npages2 | vbase1Aligned | vbase2Aligned | paddrAligned
  | swapInEntry | swapOutEntry | swapInsertRoom
deriving DecidableEq

/-- What stops an operation before it returns: a failed assertion, the panic on a read-only fault,
an index past the end of a table, a pointer to no live object, or an instruction that takes the same
fault for ever. -/
inductive Fault where
  | kassert (a : Assertion)
  | readonlyFault
  | outOfBounds
  | tlbIndex
  | badPointer
  | livelock
deriving DecidableEq

/-- A kernel operation. -/
abbrev Kernel := EStateM Fault VmState

/-- `KASSERT`. -/
def kassert (a : Assertion) (c : Bool) : Kernel Unit :=
  if c then pure () else throw (.kassert a)

/-- The error codes the memory system returns. -/
inductive Errno where
  | EUNIMP | ENOMEM | EFAULT | EINVAL | ENOEXEC
deriving DecidableEq

/-- `kern/errno.h`. -/
def Errno.code : Errno → Nat
  | .EUNIMP => 2
  | .ENOMEM => 3
  | .EFAULT => 6
  | .EINVAL => 8
  | .ENOEXEC => 13

/-- The fault types of `kern/include/vm.h`; `other` is any value the interface does not name. -/
inductive FaultType where
  | read | write | readonly | other
deriving DecidableEq

/-! ## Reaching the objects -/

/-- `kmalloc`, with `NULL` as `none`. -/
def kmalloc : Kernel (Option Ptr) := do
  let s ← get
  match s.heap.pick s.heap.live with
  | none => pure none
  | some p =>
    modify fun s => { s with heap := { s.heap with live := p :: s.heap.live } }
    pure (some p)

/-- `kfree`. Freeing `NULL` does nothing. -/
def kfree : Option Ptr → Kernel Unit
  | none => pure ()
  | some p => modify fun s => { s with heap := { s.heap with live := s.heap.live.erase p } }

/-- Reading through a pointer to an address space. -/
def derefSpace (p : Option Ptr) : Kernel AddrSpace := do
  let s ← get
  match p.bind s.spaces with
  | none => throw .badPointer
  | some as => pure as

/-- Storing an address space at its pointer. -/
def setSpace (p : Ptr) (as : AddrSpace) : Kernel Unit :=
  modify fun s => { s with spaces := Function.update s.spaces p (some as) }

/-- `pft.table[i]`, read. -/
def rowAt (i : Nat) : Kernel PageTableEntry := do
  let s ← get
  if h : i < maxPmSize then pure (s.pft ⟨i, h⟩) else throw .outOfBounds

/-- `pft.table[i]`, updated in place. -/
def updateRow (i : Nat) (f : PageTableEntry → PageTableEntry) : Kernel Unit :=
  if h : i < maxPmSize then
    modify fun s => { s with pft := Function.update s.pft ⟨i, h⟩ (f (s.pft ⟨i, h⟩)) }
  else throw .outOfBounds

/-- The entry a virtual address selects, when its level-2 table exists. -/
def AddrSpace.pte? (as : AddrSpace) (v : Vaddr) : Option PageTableEntry :=
  (as.table (level1index v)).map fun l2 => l2.table (level2index v)

/-- The same entry updated in place, when its level-2 table exists. -/
def AddrSpace.updatePte? (as : AddrSpace) (v : Vaddr) (f : PageTableEntry → PageTableEntry) :
    Option AddrSpace :=
  (as.table (level1index v)).map fun l2 =>
    { as with
      table := Function.update as.table (level1index v) <| some
        { l2 with table := Function.update l2.table (level2index v) (f (l2.table (level2index v))) } }

/-- `as->table[LEVEL1INDEX(v)]->table[LEVEL2INDEX(v)]`, read. -/
def pteAt (p : Option Ptr) (v : Vaddr) : Kernel PageTableEntry := do
  let as ← derefSpace p
  match as.pte? v with
  | none => throw .badPointer
  | some e => pure e

/-- Writing through a pointer to an address space. The write itself may go through a pointer in
it; then it answers `none` where that pointer is `NULL`. -/
def updateSpace (p : Option Ptr) (f : AddrSpace → Option AddrSpace) : Kernel Unit := do
  let s ← get
  match p with
  | none => throw .badPointer
  | some p =>
    match (s.spaces p).bind f with
    | none => throw .badPointer
    | some as => setSpace p as

/-- `as->table[LEVEL1INDEX(v)]->table[LEVEL2INDEX(v)]`, updated in place. -/
def updatePteAt (p : Option Ptr) (v : Vaddr) (f : PageTableEntry → PageTableEntry) :
    Kernel Unit :=
  updateSpace p fun as => as.updatePte? v f

end Os161.Vm
