import Mathlib.Algebra.Order.BigOperators.Group.List
import Mathlib.Algebra.Order.Group.Nat
import Os161.Vm.LoadElf

/-!
# The machine at boot

The state before `vm_bootstrap`: the kernel's globals are in zeroed memory, and `tlb_reset` of
`kern/arch/mips/vm/tlb-mips1.S` has filled the TLB. Results about runs are stated for any start;
this one is where they are applied.
-/

namespace Os161.Vm

/-- What `tlb_reset` leaves where none of its addresses was in the TLB before. -/
def resetTlb (i : Fin numTlb) : TlbEntry where
  hi := 0x81000000#32 + BitVec.ofNat 32 i * pageSize
  lo := 0#32

/-- A heap that always has room: it answers with a block above every block in use. -/
def KHeap.roomy : KHeap where
  live := []
  pick blocks := some (blocks.sum + 1)
  fresh blocks p hp hmem := by
    cases hp
    exact absurd (List.single_le_sum (fun _ _ => Nat.zero_le _) _ hmem) (by omega)
  junk _ _ := 0#32

/-- The globals before `vm_bootstrap`: zero, with no address space and no current one. -/
def coldStart : VmState where
  spaces _ := none
  heap := KHeap.roomy
  pft _ :=
    { virtualAddr := 0#32, physicalAddr := 0#32, validBit := false, dirtyBit := false
      refBit := false, pid := 0, counter := 0, pSpace := none }
  physicalBaseAddr := 0#32
  clockHand := 0
  epHand := 0
  rpHand := 0
  cntPageRepl := 0
  swapspace := []
  swapInsertions := 0
  tlb := resetTlb
  lastTlbEntry := 0
  numVmFaults := 0
  curAddrspace := none
  ram _ := 0
  swapFile _ := 0
  handedOut := []

/-! ## Processes that run one program

A start for runs in which processes meet. -/

/-- The address space of a program with one page at `0x400000` and 31 pages at `0x10000000`, of
which nothing is in memory. -/
def sampleSpace : AddrSpace where
  vbase1 := 0x400000#32
  npages1 := 1#32
  vbase2 := 0x10000000#32
  npages2 := 31#32
  pid := 0
  size := 0
  table _ := none
  stackpbase := 0#32
  stacknpages := 1#32

/-- The swap table with some pages entered one after the other. -/
def enteredSlots (pages : List Vaddr) : List PageTableEntry :=
  pages.mapIdx fun i v =>
    { virtualAddr := v, physicalAddr := BitVec.ofNat 32 (i * 4096), validBit := true
      dirtyBit := false, refBit := false, pid := 0, counter := 0, pSpace := none }

/-- Processes that run the program, entered in swap one after the other; the second one is running,
right after the switch to it. The global is the address of row 0. -/
def processes (live : List Ptr) : VmState :=
  { coldStart with
    spaces := fun p => if p ∈ live then some sampleSpace else none
    pft := fun i => bootRow 0x100000#32 (coldStart.pft i) i
    physicalBaseAddr := 0x100000#32
    rpHand := clockAngle
    swapspace := enteredSlots (live.flatMap fun _ => sampleSpace.swapPages)
    tlb := fun i => ⟨tlbhiInvalid i, tlbloInvalid⟩
    curAddrspace := some 2 }

/-! ## Programs to load -/

/-- The four bytes of a word, most significant first. -/
def wordBytes (w : BitVec 32) : List UInt8 :=
  [24, 16, 8, 0].map fun i => UInt8.ofBitVec (w.extractLsb' i 8)

/-- The executable header of a program with `phnum` program headers right behind it. -/
def ehdrBytes (phnum : UInt8) : List UInt8 :=
  [0x7f, 0x45, 0x4c, 0x46, 1, 2, 1] ++ List.replicate 9 0 ++ [0, 2, 0, 8] ++ wordBytes 1#32 ++
    wordBytes 0x400000#32 ++ wordBytes 52#32 ++ wordBytes 0#32 ++ wordBytes 0#32 ++
    [0, 52, 0, 32, 0, phnum, 0, 0, 0, 0, 0, 0]

/-- A `PT_LOAD` header for file data at the start of the file. -/
def phdrBytes (vaddr filesz memsz : BitVec 32) : List UInt8 :=
  wordBytes 1#32 ++ wordBytes 0#32 ++ wordBytes vaddr ++ wordBytes vaddr ++ wordBytes filesz ++
    wordBytes memsz ++ wordBytes 7#32 ++ wordBytes 4096#32

/-- The file of those bytes, read in one piece. -/
def Executable.ofBytes (data : List UInt8) : Executable where
  data := data
  pieces _ n := [n]
  pieces_sum _ _ := List.sum_singleton

/-- A program of one segment. -/
def oneSegment : Executable := .ofBytes (ehdrBytes 1 ++ phdrBytes 0x400000#32 4#32 4096#32)

/-- A program of two segments: one page with file data, two pages without. -/
def twoSegments : Executable :=
  .ofBytes (ehdrBytes 2 ++ phdrBytes 0x400000#32 4#32 4096#32 ++
    phdrBytes 0x10000000#32 0#32 8192#32)

/-- The machine after boot, with the global set as boot means to set it and so many free swap
slots. -/
def readyToLoad (slots : Nat) : VmState :=
  { coldStart with
    pft := fun i => bootRow 0x100000#32 (coldStart.pft i) i
    physicalBaseAddr := 0x100000#32
    rpHand := clockAngle
    swapspace := swapspaceInit (List.replicate slots default) }

end Os161.Vm
